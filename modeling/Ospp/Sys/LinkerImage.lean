import Ospp.Sys.LinkerPlan

/-!
# The image that is loaded

What the memory of a loaded section is before relocation. `stage1` copies a section of type
`SHT_PROGBITS` from the file and fills all others with zeros, also those that have contents in the
file: notes, and the arrays of constructors. A section may also be covered by a later one, where
`align_up` has wrapped; the last one over a byte decides (`lastOver`).
-/

namespace Ospp

/-- An allocated section that is not empty. -/
def SectionHeader.Allocated (h : SectionHeader) : Prop := h.flags &&& shfAlloc ≠ 0 ∧ h.size ≠ 0

namespace Linker

open Layer Trans

/-! ## Statements -/

/-- Byte `k` of a section in the file; a section of type `SHT_NOBITS` is zeros. -/
def fileByte (o : Object) (h : SectionHeader) (k : ℕ) : UInt8 :=
  if h.type = shtNobits then 0 else o.image.read8 (o.headerOffset h.offset + k)

/-- Every allocated section is loaded, and its memory has its bytes. -/
def InMemory (o : Object) (m : ModuleSpace) (L : Layout) : Prop :=
  ∀ i < o.secHdrsNum.toNat, (o.secHdr i).Allocated → ∃ wh sec, L.map i = some (wh, sec) ∧
    (L.region wh).base ≠ 0 ∧ sec.size = (o.secHdr i).size ∧ ∀ k < sec.size,
      m.mm.vmm.readByte ((L.region wh).base + sec.regOff + k) = .ok (fileByte o (o.secHdr i) k)

/-- The bytes that are written are bytes of the section they are for, and not of the padding. -/
def WritesSections (ws : List Write) : Prop :=
  ∀ w ∈ ws, ∀ x, w.Touches x → Occupies w.layout w.which w.sec x

/-- The byte `stage1` puts into memory for byte `k` of a section. -/
def copiedByte (o : Object) (h : SectionHeader) (k : ℕ) : UInt8 :=
  if h.type = shtProgbits then o.image.read8 (o.headerOffset h.offset + k) else 0

/-- The last of the first `n` headers whose section is over the offset `x` of a region. -/
def lastOver (o : Object) (wh : Which) (x : ℕ) : ℕ → Option ℕ
  | 0 => none
  | j + 1 =>
    if (o.secHdr j).region = some wh ∧ offset o wh j ≤ x ∧ x < offset o wh j + (o.secHdr j).size then
      some j
    else lastOver o wh x j

/-- Every allocated section goes to a region whose size does not wrap to 0, and each of its bytes is
what `stage1` copies for the last section over it. -/
def Copied (o : Object) : Prop :=
  ∀ i < o.secHdrsNum.toNat, (o.secHdr i).Allocated → ∃ wh ∈ (o.secHdr i).region,
    regionSize o wh ≠ 0 ∧ ∀ k < (o.secHdr i).size,
      ∃ j ∈ lastOver o wh (offset o wh i + k) o.secHdrsNum.toNat,
        copiedByte o (o.secHdr j) (offset o wh i + k - offset o wh j) = fileByte o (o.secHdr i) k

instance (h : SectionHeader) : Decidable h.Allocated :=
  inferInstanceAs (Decidable (h.flags &&& shfAlloc ≠ 0 ∧ h.size ≠ 0))

instance (o : Object) : Decidable (Copied o) :=
  inferInstanceAs (Decidable (∀ i < o.secHdrsNum.toNat, (o.secHdr i).Allocated →
    ∃ wh ∈ (o.secHdr i).region, regionSize o wh ≠ 0 ∧ ∀ k < (o.secHdr i).size,
      ∃ j ∈ lastOver o wh (offset o wh i + k) o.secHdrsNum.toNat,
        copiedByte o (o.secHdr j) (offset o wh i + k - offset o wh j) =
          fileByte o (o.secHdr i) k))

/-! ## The bytes of a region -/

section

variable {res ext own : ℕ → Prop} {s : Linker} {o : Object} {m : ModuleSpace} {L : Layout}
  {wh : Which}

/-- A region, as far as it is mapped. -/
theorem Ready.reads_region (h : Ready res ext own s o m L) {x : ℕ}
    (hb : (L.region wh).base ≠ 0) (hlo : (L.region wh).base ≤ x)
    (hhi : x < (L.region wh).base + (L.region wh).size) :
    ∃ μ : ℕ → K UInt8, m.mm.vmm.readByte x = lay (copyLayers L wh) μ x := by
  obtain ⟨μ, hμ⟩ := h.reads
  obtain ⟨⟨r, hr, hin⟩, _⟩ := h.mapped hb hlo hhi
  rw [hμ x ⟨r, List.mem_append_left _ hr, hin⟩, lay_append]
  cases wh with
  | rw => exact ⟨_, rfl⟩
  | rx =>
    refine ⟨μ, lay_of_forall fun l hl hc => ?_⟩
    -- the layers of the other region are on other pages
    obtain ⟨b, rfl, hb0⟩ := h.plan
    obtain ⟨r', hr', hin'⟩ := h.loading.in_of_covers .rw (fun h0 => (hb0 .rw).1 h0) hl hc
    obtain ⟨r₁, hr₁, hin₁⟩ := in_region (h.loading.ok.region .rx) hb hlo hhi
    have hdisj := (List.pairwise_append.1 h.loading.space.disjoint).1
    have hapart := (List.pairwise_append.1 hdisj).2.2 r' hr' r₁ hr₁
    unfold PageRun.Has at hin' hin₁
    unfold PageRun.Apart at hapart
    omega

theorem Ready.copyLayers_eq (h : Ready res ext own s o m L)
    (hok : (stage0 (Layout.new o)).2 = true) (h0 : regionSize o wh ≠ 0) :
    copyLayers L wh =
      (members o wh o.secHdrsNum.toNat).map fun i => copyLayer L wh (placed o wh i) := by
  have hfill := h.filled wh
  obtain ⟨b, rfl, _⟩ := h.plan
  obtain ⟨hsize, hsecs, _⟩ := plan_spec hok
  have hcop : copied (Linker.plan o) wh = ((Linker.plan o).region wh).sections := by
    rw [filled_withBases] at hfill
    unfold Linker.filled at hfill
    rw [hsize wh, beq_false_of_ne h0, Bool.false_or, List.all_eq_true] at hfill
    unfold copied
    rw [if_neg (by rw [hsize wh]; exact h0), List.takeWhile_eq_self_iff]
    exact hfill
  unfold copyLayers
  rw [copied_withBases, hcop, hsecs wh, List.map_map]
  rfl

/-- The last section over an offset is the layer that is seen there. -/
theorem top_members (L : Layout) (x : ℕ) : ∀ n,
    top ((members o wh n).map fun i => copyLayer L wh (placed o wh i)) ((L.region wh).base + x) =
      (lastOver o wh x n).map fun i => copyLayer L wh (placed o wh i) := by
  intro n
  induction n with
  | zero => rfl
  | succ n ih =>
    by_cases hreg : (o.secHdr n).region = some wh
    · rw [members_succ_of hreg, List.map_append, top_append, ih, lastOver]
      show (top [copyLayer L wh (placed o wh n)] ((L.region wh).base + x)).or _ = _
      have hiff : (copyLayer L wh (placed o wh n)).Covers ((L.region wh).base + x) ↔
          offset o wh n ≤ x ∧ x < offset o wh n + (o.secHdr n).size := by
        show (L.region wh).base + offset o wh n ≤ _ ∧
          _ < (L.region wh).base + offset o wh n + (o.secHdr n).size ↔ _
        omega
      rw [top, top, Option.none_or]
      by_cases hc : offset o wh n ≤ x ∧ x < offset o wh n + (o.secHdr n).size
      · rw [if_pos (hiff.2 hc), if_pos ⟨hreg, hc⟩]
        rfl
      · rw [if_neg fun h => hc (hiff.1 h), if_neg fun h => hc h.2, Option.none_or]
    · rw [members_succ_of_not hreg, ih, lastOver, if_neg fun h => hreg h.1]

theorem exists_lastOver {i x : ℕ} (hreg : (o.secHdr i).region = some wh) (hlo : offset o wh i ≤ x)
    (hhi : x < offset o wh i + (o.secHdr i).size) : ∀ n, i < n → ∃ j, lastOver o wh x n = some j := by
  intro n
  induction n with
  | zero => intro hi; omega
  | succ n ih =>
    intro hi
    rw [lastOver]
    split_ifs with hc
    · exact ⟨n, rfl⟩
    · refine ih (lt_of_le_of_ne (by omega) ?_)
      rintro rfl
      exact hc ⟨hreg, hlo, hhi⟩

/-! ## The result -/

section

variable {res ext own : ℕ → Prop} {s : Linker} {o : Object} {m : ModuleSpace} {L : Layout}
  {wh : Which}

theorem contents_placed (o : Object) (wh : Which) (j k : ℕ) :
    contents o (placed o wh j) k = copiedByte o (o.secHdr j) k := by
  unfold contents copiedByte placed newSection
  dsimp only
  by_cases hp : (o.secHdr j).type = shtProgbits
  · rw [if_pos hp, if_pos hp]
  · rw [if_neg hp, if_neg hp]
    by_cases hn : (o.secHdr j).type = shtNobits
    · rw [if_pos hn]
    · rw [if_neg hn]

/-- **A byte of a section** after both stages. -/
theorem Ready.readByte_placed (h : Ready res ext own s o m L)
    (hok : (stage0 (Layout.new o)).2 = true) {i k : ℕ} (hi : i < o.secHdrsNum.toNat)
    (hreg : (o.secHdr i).region = some wh) (h0 : regionSize o wh ≠ 0) (hk : k < (o.secHdr i).size) :
    ∃ j, lastOver o wh (offset o wh i + k) o.secHdrsNum.toNat = some j ∧
      m.mm.vmm.readByte ((L.region wh).base + offset o wh i + k) =
        .ok (copiedByte o (o.secHdr j) (offset o wh i + k - offset o wh j)) := by
  obtain ⟨j, hj⟩ := exists_lastOver hreg (x := offset o wh i + k) (by omega) (by omega) _ hi
  have hmap : L.map i = some (wh, placed o wh i) := by rw [h.map hok, if_pos hi, hreg]; rfl
  have hb : (L.region wh).base ≠ 0 := fun hb => h0 ((h.base_eq_zero hok).1 hb)
  obtain ⟨hlo, hhi, hsec⟩ := h.fits hmap hb
  have hsec' : offset o wh i + (o.secHdr i).size ≤ (L.region wh).size := hsec
  obtain ⟨μ, hμ⟩ := h.reads_region (x := (L.region wh).base + (offset o wh i + k)) hb (by omega)
    (by omega)
  refine ⟨j, hj, ?_⟩
  rw [Nat.add_assoc, hμ, h.copyLayers_eq hok h0, lay_eq, top_members, hj]
  show Except.ok (contents L.obj (placed o wh j)
    ((L.region wh).base + (offset o wh i + k) - ((L.region wh).base + offset o wh j))) = _
  rw [h.obj, contents_placed, Nat.add_sub_add_left]

/-- The copies of `stage1` are written to sections. -/
theorem writesSections_of_events {b : Which → ℕ} {ws : List Write}
    (hev : ∀ w ∈ ws, ∃ m' x, x ≠ 0 ∧
      Loading res ext own s m' (L.withBases (Function.update b wh x)) ∧
      ∃ sec ∈ copied L wh, w = copyWrite (L.withBases (Function.update b wh x)) wh sec) :
    WritesSections ws := by
  intro w hw a ha
  obtain ⟨m', x, hx, hl, sec, hsec, rfl⟩ := hev w hw
  have hfit : Fits (L.withBases (Function.update b wh x)) wh sec :=
    hl.fits_copied (by rw [Function.update_self]; exact hx) hsec
  refine (copyWrite_own hfit ?_ a).1 ha
  rw [Layout.region_withBases]
  exact (mem_of_copied hsec).2.1

end

/-- What the memory of the sections is when both regions have been filled. -/
theorem Ready.inMemory_iff (hready : Ready res ext own s o m L)
    (hok : (stage0 (Layout.new o)).2 = true) : InMemory o m L ↔ Copied o := by
  constructor
  · intro hmem i hi halloc
    obtain ⟨wh, sec, hmap, hb, _, hbytes⟩ := hmem i hi halloc
    rw [hready.map hok, if_pos hi, Option.map_eq_some_iff] at hmap
    obtain ⟨wh', hreg, hsec⟩ := hmap
    cases hsec
    have h0 : regionSize o wh ≠ 0 := fun h0 => hb ((hready.base_eq_zero hok).2 h0)
    refine ⟨wh, hreg, h0, fun k hk => ?_⟩
    obtain ⟨j, hj, hread⟩ := hready.readByte_placed hok hi hreg h0 hk
    refine ⟨j, hj, ?_⟩
    have hbyte := hbytes k hk
    rw [show (placed o wh i).regOff = offset o wh i from rfl, hread] at hbyte
    exact Except.ok.inj hbyte
  · intro hc i hi halloc
    obtain ⟨wh, hreg, h0, hbytes⟩ := hc i hi halloc
    rw [Option.mem_def] at hreg
    refine ⟨wh, placed o wh i, by rw [hready.map hok, if_pos hi, hreg]; rfl,
      fun hb => h0 ((hready.base_eq_zero hok).1 hb), rfl, fun k hk => ?_⟩
    obtain ⟨j, hj, hread⟩ := hready.readByte_placed hok hi hreg h0 hk
    obtain ⟨j', hj', hbyte⟩ := hbytes k hk
    rw [Option.mem_def, hj] at hj'
    cases hj'
    rw [show (placed o wh i).regOff = offset o wh i from rfl, hread, hbyte]

end

/-- **The image.** After both calls of `stage1`, the memory of every allocated section is what the
file says, and nothing has been written to the padding, exactly when each of its bytes is what the
last section over it is filled with: the bytes of the file for `SHT_PROGBITS`, zeros for all other
types. -/
theorem image_faithful_iff (tab : List KexpEntry) (s₀ s : Linker) (h₀ : Init s₀) (as : List Act)
    (hrun : Run (Step tab) s₀ as s) (o : Object) (L₀ L₁ L : Layout) (m₁ m : ModuleSpace)
    (hs₀ : stage0 (Layout.new o) = (L₀, true))
    (h₁ : (stage1 s.space L₀ .rx).result = .ok (m₁, L₁, true))
    (h₂ : (stage1 m₁ L₁ .rw).result = .ok (m, L, true)) :
    (InMemory o m L ∧
      WritesSections ((stage1 s.space L₀ .rx).trace ++ (stage1 m₁ L₁ .rw).trace)) ↔ Copied o := by
  obtain ⟨res, ext, own, _, hI₀⟩ := inv_init h₀
  have hI := inv_run hI₀ hrun
  have hs : Staged s o m L := ⟨L₀, m₁, L₁, hs₀, h₁, h₂⟩
  have hok := hs.stage0_ok
  have hready := hs.ready hI.space
  have hwrites : WritesSections ((stage1 s.space L₀ .rx).trace ++ (stage1 m₁ L₁ .rw).trace) := by
    have hplan : plan o = L₀ := by unfold plan; rw [hs₀]
    subst hplan
    obtain ⟨hp, _, hsize⟩ := stage0_spec o hs₀
    have hl₀ : Loading res ext own s s.space ((plan o).withBases fun _ => 0) := by
      rw [← withBases_start hp]; exact loading_start hI.space hp
    rw [withBases_start hp] at h₁ ⊢
    obtain ⟨hev₁, hret₁⟩ := stage1_events .rx hl₀ rfl (hsize rfl .rx)
    obtain ⟨x, rfl, _, _, hl₁, _⟩ := hret₁ _ _ _ h₁
    obtain ⟨hev₂, _⟩ := stage1_events .rw hl₁ rfl (hsize rfl .rw)
    intro w hw
    rcases List.mem_append.1 hw with hw | hw
    · exact writesSections_of_events hev₁ w hw
    · exact writesSections_of_events hev₂ w hw
  rw [and_iff_left hwrites]
  exact hready.inMemory_iff hok

/-- The two sections of the small object are copied. -/
theorem image_faithful_sample : ∃ s L₀ L₁ L m₁ m, Init s ∧
    stage0 (Layout.new (sampleObject 0)) = (L₀, true) ∧
    (stage1 s.space L₀ .rx).result = .ok (m₁, L₁, true) ∧
    (stage1 m₁ L₁ .rw).result = .ok (m, L, true) ∧ (sampleObject 0).secHdrsNum = 5 ∧
    InMemory (sampleObject 0) m L := by
  obtain ⟨s, m, L, hinit, ⟨L₀, m₁, L₁, hs₀, h₁, h₂⟩, _⟩ :=
    exists_staged (o := sampleObject 0) (p := fun _ _ => true) (by decide +kernel)
  exact ⟨s, L₀, L₁, L, m₁, m, hinit, hs₀, h₁, h₂, rfl,
    ((image_faithful_iff [] _ _ hinit [] (.nil _) _ L₀ L₁ L m₁ m hs₀ h₁ h₂).2
      (by decide +kernel)).1⟩

/-- An object with an array of one constructor, at `0x08048123`. -/
def initArrayObject : Object where
  image := sampleImage (headerWords 0x500428 ⟨14, 3, 0x100, 4, 0, 4⟩ ++ [(0x500100, 0x08048123)])
  hdr := 0x500000
  shoff := 0x400
  secHdrsNum := 2
  symtab := 0
  strtab := 0

/-- The array is zeros in memory. -/
theorem init_array_not_copied : ∃ s L₀ L₁ L m₁ m, Init s ∧
    stage0 (Layout.new initArrayObject) = (L₀, true) ∧
    (stage1 s.space L₀ .rx).result = .ok (m₁, L₁, true) ∧
    (stage1 m₁ L₁ .rw).result = .ok (m, L, true) ∧ ¬ InMemory initArrayObject m L := by
  obtain ⟨s, m, L, hinit, ⟨L₀, m₁, L₁, hs₀, h₁, h₂⟩, hp⟩ :=
    exists_staged (o := initArrayObject) (p := fun m L => (L.map 1).any fun (q : Which × Section) =>
      decide (0 < q.2.size) &&
        (m.mm.vmm.readByte ((L.region q.1).base + q.2.regOff)).holds (· == 0)) (by decide +kernel)
  refine ⟨s, L₀, L₁, L, m₁, m, hinit, hs₀, h₁, h₂, fun hmem => ?_⟩
  obtain ⟨wh, sec, hmap, _, _, hbytes⟩ := hmem 1 (by decide) (by decide +kernel)
  rw [hmap, Option.any_some, Bool.and_eq_true, decide_eq_true_eq] at hp
  obtain ⟨b, hb, hzero⟩ := K.exists_of_holds hp.2
  have hbyte := hbytes 0 hp.1
  rw [Nat.add_zero, hb, eq_of_beq hzero, Except.ok.injEq] at hbyte
  exact absurd hbyte (by decide +kernel)

end Linker

end Ospp
