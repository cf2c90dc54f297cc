import Mathlib.Data.List.TakeWhile
import Ospp.Sys.LinkerRestore

/-!
# Writes in the module window

`stage1` copies the sections that pass its checks, in order (`copied`), and `stage2` patches the words
of the relocation entries that are applied (`outcome`). What both do is given by the layout up to the
bases of its two regions (`withBases`).

A write is confined when it stays in the section it is made for, and out of every other section of
the new layout and every page of the live ones (`Confined`). The copy of a section is, unless another
section shares an offset with it, and the word of an entry is, unless the check on its offset,
`r.offset + sizeof(uint32_t)`, wraps (`copyWrite_own`, `patchWrite_own`).
-/

namespace Ospp

namespace Linker

open Trans

/-! ## Statements -/

/-- The bytes of a write. -/
def Write.Touches (w : Write) (x : ℕ) : Prop := w.addr ≤ x ∧ x < w.addr + w.len

/-- The address is in the range of a section of a mapped region. -/
structure Occupies (L : Layout) (wh : Which) (sec : Section) (x : ℕ) : Prop where
  mem : sec ∈ (L.region wh).sections
  base : (L.region wh).base ≠ 0
  lo : (L.region wh).base + sec.regOff ≤ x
  hi : x < (L.region wh).base + sec.regOff + sec.size

/-- The write stays in its section. The live layouts are those of `s`. -/
structure Confined (s : Linker) (w : Write) : Prop where
  own : ∀ x, w.Touches x → Occupies w.layout w.which w.sec x
  neighbours : ∀ x, w.Touches x → ∀ wh sec, (wh, sec) ≠ (w.which, w.sec) →
    ¬ Occupies w.layout wh sec x
  others : ∀ x, w.Touches x → ¬ In (runs s.layouts) (x / 4096)

/-! ## The plan of a load -/

/-- The layout `stage0` makes for an object. -/
def plan (o : Object) : Layout := (stage0 (Layout.new o)).1

/-- The sections of a region that are copied: those before the first that fails a check. -/
def copied (L : Layout) (wh : Which) : List Section :=
  if (L.region wh).size = 0 then [] else (L.region wh).sections.takeWhile (copyable L wh)

/-- `stage1` succeeds on a region. -/
def filled (L : Layout) (wh : Which) : Bool :=
  (L.region wh).size == 0 || (L.region wh).sections.all (copyable L wh)

inductive Outcome where
  | fail
  | skip
  | patch
  deriving DecidableEq

/-- What becomes of a relocation entry. -/
def outcome (tab : List KexpEntry) (L : Layout) (sec : Section) (r : Rel) : Outcome :=
  match L.obj.symbolByIndex r.sym with
  | none => .fail
  | some sym =>
    if sec.size < Word32.add r.offset 4 then .fail
    else match resolve tab L sym with
      | .ok .skip => .skip
      | .ok (.value _) => if r.type = r386_32 ∨ r.type = r386_PC32 then .patch else .fail
      | _ => .fail

/-- An entry that is applied, with the section it patches. -/
structure Patch where
  which : Which
  sec : Section
  rel : Rel

/-- The layout with bases for both regions. -/
def Layout.withBases (L : Layout) (b : Which → ℕ) : Layout :=
  (L.withBase .rx (b .rx)).withBase .rw (b .rw)

/-! ## The events of each stage -/

/-- The write of `stage1` for a section. -/
def copyWrite (L : Layout) (wh : Which) (sec : Section) : Write :=
  ⟨Word32.add (L.region wh).base sec.regOff, sec.size, L, wh, sec⟩

/-- The write of `stage2` for an entry. -/
def patchWrite (L : Layout) (p : Patch) : Write :=
  ⟨patchAddr L p.which p.sec p.rel, 4, L, p.which, p.sec⟩

theorem copySections_performs (L : Layout) (wh : Which) : ∀ (secs : List Section) (m : ModuleSpace),
    (copySections L wh secs m).Performs
      ((secs.takeWhile (copyable L wh)).map (copyWrite L wh))
      fun r => r.2 = secs.all (copyable L wh) := by
  intro secs
  induction secs with
  | nil => intro m; exact Traced.performs_pure rfl
  | cons sec secs ih =>
    intro m
    rw [copySections]
    by_cases hc : copyable L wh sec = true
    · rw [hc, Bool.not_true, if_neg Bool.false_ne_true, List.takeWhile_cons_of_pos hc,
        List.map_cons, List.all_cons, hc, Bool.true_and]
      exact (Traced.performs_emit _).bind fun _ _ => (Traced.performs_lift _).bind
        fun vmm _ => ih _
    · rw [List.takeWhile_cons_of_neg hc, List.all_cons]
      rw [Bool.not_eq_true] at hc
      rw [hc, Bool.not_false, if_pos rfl, Bool.false_and]
      exact Traced.performs_pure rfl

def Outcome.writes (w : Write) : Outcome → List Write
  | .patch => [w]
  | _ => []

def Outcome.good : Outcome → Bool
  | .fail => false
  | _ => true

theorem relocate_performs (tab : List KexpEntry) (L : Layout) (wh : Which) (sec : Section) (r : Rel)
    (m : ModuleSpace) :
    (relocate tab L wh sec r m).Performs
      ((outcome tab L sec r).writes (patchWrite L ⟨wh, sec, r⟩))
      fun x => x.2 = (outcome tab L sec r).good := by
  unfold relocate outcome
  cases L.obj.symbolByIndex r.sym with
  | none => exact Traced.performs_pure rfl
  | some sym =>
    dsimp only
    by_cases hsz : sec.size < Word32.add r.offset 4
    · rw [if_pos hsz, if_pos hsz]
      exact Traced.performs_pure rfl
    · rw [if_neg hsz, if_neg hsz]
      refine (Traced.performs_lift _).bind (l := []) fun A _ =>
        (Traced.performs_lift _).bind (l := []) fun q hq => ?_
      rw [hq]
      cases q with
      | fail => exact Traced.performs_pure rfl
      | skip => exact Traced.performs_pure rfl
      | value S =>
        dsimp only
        by_cases h32 : r.type = r386_32
        · rw [if_pos h32, if_pos (Or.inl h32)]
          exact (Traced.performs_emit _).bind fun _ _ => (Traced.performs_lift _).bind
            fun vmm _ => Traced.performs_pure rfl
        by_cases hpc : r.type = r386_PC32
        · rw [if_neg h32, if_pos hpc, if_pos (Or.inr hpc)]
          exact (Traced.performs_emit _).bind fun _ _ => (Traced.performs_lift _).bind
            fun vmm _ => Traced.performs_pure rfl
        rw [if_neg h32, if_neg hpc, if_neg (not_or.2 ⟨h32, hpc⟩)]
        exact Traced.performs_pure rfl

/-! ## Bases -/

section

variable {L L' : Layout} {b : Which → ℕ}

@[simp] theorem Layout.region_withBases (L : Layout) (b : Which → ℕ) (wh : Which) :
    (L.withBases b).region wh = { L.region wh with base := b wh } := by
  cases wh <;> rfl

@[simp] theorem Layout.obj_withBases (L : Layout) (b : Which → ℕ) : (L.withBases b).obj = L.obj :=
  rfl

@[simp] theorem Layout.map_withBases (L : Layout) (b : Which → ℕ) : (L.withBases b).map = L.map :=
  rfl

/-- The checks of `stage1` do not read the bases. -/
theorem copyable_withBase (L : Layout) (wh : Which) (x : ℕ) :
    copyable (L.withBase wh x) wh = copyable L wh := by
  cases wh <;> rfl

theorem copyable_withBases (L : Layout) (b : Which → ℕ) (wh : Which) :
    copyable (L.withBases b) wh = copyable L wh := by
  cases wh <;> rfl

theorem copied_withBases (L : Layout) (b : Which → ℕ) (wh : Which) :
    copied (L.withBases b) wh = copied L wh := by
  cases wh <;> rfl

theorem filled_withBases (L : Layout) (b : Which → ℕ) (wh : Which) :
    filled (L.withBases b) wh = filled L wh := by
  cases wh <;> rfl

end

/-! ## Writes that are confined -/

section

variable {res ext own : ℕ → Prop} {tab : List KexpEntry} {s s' : Linker} {m m' : ModuleSpace}
  {L : Layout} {b : Which → ℕ}

/-- The addresses of a mapped region are on its pages. -/
theorem in_region {reg : Region} {x : ℕ} (hok : reg.Ok) (hb : reg.base ≠ 0) (hlo : reg.base ≤ x)
    (hhi : x < reg.base + reg.size) : In reg.runs (x / 4096) := by
  have hs : reg.size ≠ 0 := by omega
  obtain ⟨hwin, hal, hsz⟩ := (hok.resolve_left hb).resolve_left hs
  unfold Region.runs
  rw [if_neg (not_or.2 ⟨hb, hs⟩)]
  refine ⟨_, List.mem_singleton_self _, ?_⟩
  unfold moduleSpaceBase at hwin
  unfold PageRun.Has modulePage moduleSpaceBase pageSize
  dsimp only
  omega

/-- A write in its own section, which no other section of the region overlaps. The sections of the
other region have to be inside it. -/
theorem confined_of_own {w : Write} (h : Loading res ext own s m w.layout)
    (hfit : Fits w.layout w.which w.sec) (hown : ∀ x, w.Touches x → Occupies w.layout w.which w.sec x)
    (hapart : ∀ sec' ∈ (w.layout.region w.which).sections, sec' ≠ w.sec →
      ∀ x, w.sec.Has x → ¬ sec'.Has x)
    (hother : ∀ sec' ∈ (w.layout.region w.which.other).sections,
      (w.layout.region w.which.other).base ≠ 0 → Fits w.layout w.which.other sec') :
    Confined s w := by
  have hin : ∀ x, w.Touches x → In (w.layout.region w.which).runs (x / 4096) := by
    intro x hx
    obtain ⟨_, hb, hlo, hhi⟩ := hown x hx
    have := hfit.sec
    exact in_region (h.ok.region _) hb (by omega) (by omega)
  have hperm := w.layout.runs_perm_region w.which.other_ne
  refine ⟨hown, fun x hx wh sec hne hocc => ?_, fun x hx => ?_⟩
  · obtain ⟨_, _, hlo, hhi⟩ := hown x hx
    obtain ⟨hmem, hb', hlo', hhi'⟩ := hocc
    by_cases hwh : wh = w.which
    · subst hwh
      refine hapart sec hmem (fun he => hne (by rw [he])) (x - (w.layout.region w.which).base)
        ⟨by omega, by omega⟩ ⟨by omega, by omega⟩
    · have hwh' : wh = w.which.other := by
        cases hw : w.which <;> cases wh <;> first | rfl | exact absurd hw.symm hwh
      subst hwh'
      have hsec := (hother sec hmem hb').sec
      obtain ⟨r', hr', hin'⟩ := in_region (h.ok.region _) hb' (x := x) (by omega) (by omega)
      obtain ⟨r, hr, hin⟩ := hin x hx
      have hd := (List.pairwise_append.1 h.space.disjoint).1
      have := (List.pairwise_append.1 (hperm.pairwise hd Or.symm)).2.2 r hr r' hr'
      unfold PageRun.Has at hin hin'
      unfold PageRun.Apart at this
      omega
  · obtain ⟨r, hr, hin⟩ := hin x hx
    exact (h.fresh ⟨r, hperm.symm.subset (List.mem_append_left _ hr), hin⟩).1

/-- The copy of a section. -/
theorem copyWrite_own {wh : Which} {sec : Section} (hfit : Fits L wh sec)
    (hmem : sec ∈ (L.region wh).sections) (x : ℕ) :
    (copyWrite L wh sec).Touches x ↔ Occupies L wh sec x := by
  obtain ⟨hlo, hhi, hsec⟩ := hfit
  unfold copyWrite Write.Touches
  dsimp only
  rw [Word32.add_eq (by omega)]
  exact ⟨fun ⟨h1, h2⟩ => ⟨hmem, by omega, h1, h2⟩, fun h => ⟨h.lo, h.hi⟩⟩

/-- The word of an entry is in the section, or before it when the offset is one of the last four. -/
theorem patchWrite_own {p : Patch} (hfit : Fits L p.which p.sec)
    (hmem : p.sec ∈ (L.region p.which).sections) (hlt : p.rel.offset < 4294967296)
    (hsz : ¬ p.sec.size < Word32.add p.rel.offset 4) :
    (∀ x, (patchWrite L p).Touches x → Occupies L p.which p.sec x) ↔
      p.rel.offset ≤ 0xFFFFFFFB := by
  have hlo := hfit.lo
  have hcases := patchAddr_cases hfit hlt hsz
  unfold patchWrite Write.Touches
  dsimp only
  constructor
  · intro h
    have := (h (patchAddr L p.which p.sec p.rel) ⟨le_rfl, by omega⟩).lo
    rcases hcases with ⟨h1, _⟩ | ⟨_, h2⟩
    · exact h1
    · omega
  · intro hoff x hx
    rcases hcases with ⟨_, h1, h2⟩ | ⟨h1, _⟩
    · exact ⟨hmem, by omega, by omega, by omega⟩
    · omega

/-! ## The events of `stage1` -/

theorem withBases_start (hp : Planned L) : L = L.withBases fun _ => 0 := by
  have hrx : L.rx = { L.rx with base := 0 } := by
    rw [← show L.rx.base = 0 from hp.base .rx]
  have hrw : L.rw = { L.rw with base := 0 } := by
    rw [← show L.rw.base = 0 from hp.base .rw]
  unfold Layout.withBases Layout.withBase Layout.setRegion Layout.region
  dsimp only
  rw [← hrx, ← hrw]

theorem withBase_withBases (L : Layout) (b : Which → ℕ) (wh : Which) (x : ℕ) :
    (L.withBases b).withBase wh x = L.withBases (Function.update b wh x) := by
  cases wh <;>
    simp [Layout.withBases, Layout.withBase, Layout.setRegion, Layout.region, Function.update]

/-- `stage1` on a region that has been mapped. -/
theorem stage1_performs {wh : Which} {x : ℕ} (h0 : (L.region wh).size ≠ 0)
    (hmap : m.mapRegion ((L.region wh).size / pageSize) = .ok (m', some x)) :
    (stage1 m L wh).Performs ((copied L wh).map (copyWrite (L.withBase wh x) wh))
      fun r => r.2.1 = L.withBase wh x ∧ r.2.2 = filled L wh := by
  have hcopy := copySections_performs (L.withBase wh x) wh (L.region wh).sections m'
  rw [copyable_withBase] at hcopy
  have hfill : filled L wh = (L.region wh).sections.all (copyable L wh) := by
    unfold filled
    rw [beq_false_of_ne h0, Bool.false_or]
  have hcop : copied L wh = (L.region wh).sections.takeWhile (copyable L wh) := if_neg h0
  unfold stage1
  dsimp only
  rw [if_neg h0, hcop, hfill]
  refine (Traced.performs_lift _).bind (l := []) fun p hp => ?_
  rw [hmap] at hp
  cases hp
  rw [← List.append_nil (List.map _ _)]
  exact hcopy.bind fun r hr => Traced.performs_pure ⟨rfl, hr⟩

/-- **`stage1`.** The events need the pages of the region, and all of them happen if it returns. -/
theorem stage1_events (wh : Which) (hl : Loading res ext own s m (L.withBases b)) (hb : b wh = 0)
    (hsize : (L.region wh).size % 4096 = 0) :
    (∀ w ∈ (stage1 m (L.withBases b) wh).trace, ∃ m' x, x ≠ 0 ∧
      Loading res ext own s m' (L.withBases (Function.update b wh x)) ∧
      ∃ sec ∈ copied L wh, w = copyWrite (L.withBases (Function.update b wh x)) wh sec) ∧
    ∀ m' L' ok, (stage1 m (L.withBases b) wh).result = .ok (m', L', ok) → ∃ x,
      L' = L.withBases (Function.update b wh x) ∧ (x = 0 ↔ (L.region wh).size = 0) ∧
      ok = filled L wh ∧ Loading res ext own s m' L' ∧
      ∀ sec ∈ copied L wh, copyWrite L' wh sec ∈ (stage1 m (L.withBases b) wh).trace := by
  have hreg := L.region_withBases b wh
  have hbase : ((L.withBases b).region wh).base = 0 := by rw [hreg]; exact hb
  have hsz : ((L.withBases b).region wh).size % 4096 = 0 := by rw [hreg]; exact hsize
  by_cases h0 : (L.region wh).size = 0
  · have hst : stage1 m (L.withBases b) wh = pure (m, L.withBases b, true) := by
      unfold stage1
      dsimp only
      rw [hreg, if_pos h0]
    rw [hst]
    refine ⟨fun w hw => (by cases hw), fun m' L' ok hr => ?_⟩
    cases hr
    have hup : Function.update b wh 0 = b := by rw [← hb, Function.update_eq_self]
    refine ⟨0, by rw [hup], by simp [h0], ?_, hl, fun sec hsec => ?_⟩
    · unfold filled
      rw [h0]
      rfl
    · unfold copied at hsec
      rw [if_pos h0] at hsec
      cases hsec
  · have h0' : ((L.withBases b).region wh).size ≠ 0 := by rw [hreg]; exact h0
    cases hmap : m.mapRegion (((L.withBases b).region wh).size / pageSize) with
    | error e =>
      have hst : stage1 m (L.withBases b) wh = ⟨[], .error e⟩ := by
        unfold stage1
        dsimp only
        rw [if_neg h0', hmap]
        rfl
      rw [hst]
      exact ⟨fun w hw => (by cases hw), fun m' L' ok hr => (by cases hr)⟩
    | ok p =>
      obtain ⟨m₁, base⟩ := p
      obtain ⟨x, rfl, hx, hl₁⟩ := hl.mapRegion hsz hbase h0' hmap
      have hperf := stage1_performs h0' hmap
      rw [copied_withBases, filled_withBases, withBase_withBases] at hperf
      rw [withBase_withBases] at hl₁
      refine ⟨fun w hw => ?_, fun m' L' ok hr => ?_⟩
      · obtain ⟨sec, hsec, rfl⟩ := List.mem_map.1 (hperf.mem hw)
        exact ⟨m₁, x, hx, hl₁, sec, hsec, rfl⟩
      · obtain ⟨hL, hok⟩ := (hperf.returns _ hr).2
        dsimp only at hL hok
        refine ⟨x, hL, by simp [hx, h0], hok, hl.stage1 hsz hbase hr, fun sec hsec => ?_⟩
        rw [hL]
        exact hperf.mem_trace hr (List.mem_map_of_mem hsec)

/-- The bases after both stages. -/
def bases (x y : ℕ) : Which → ℕ
  | .rx => x
  | .rw => y

theorem update_rx (x : ℕ) : Function.update (fun _ => 0) Which.rx x = bases x 0 := by
  funext wh; cases wh <;> rfl

theorem update_rw (x y : ℕ) : Function.update (bases x 0) Which.rw y = bases x y := by
  funext wh; cases wh <;> rfl

theorem mem_of_copied {wh : Which} {sec : Section} (h : sec ∈ copied L wh) :
    (L.region wh).size ≠ 0 ∧ sec ∈ (L.region wh).sections ∧ copyable L wh sec = true := by
  unfold copied at h
  split_ifs at h with h0
  · cases h
  · exact ⟨h0, (List.takeWhile_sublist _).subset h, List.mem_takeWhile_imp h⟩

theorem copied_of_filled {wh : Which} {sec : Section} (hf : filled L wh = true)
    (h0 : (L.region wh).size ≠ 0) (hmem : sec ∈ (L.region wh).sections) :
    sec ∈ copied L wh := by
  unfold filled at hf
  rw [beq_false_of_ne h0, Bool.false_or, List.all_eq_true] at hf
  unfold copied
  rw [if_neg h0, List.takeWhile_eq_self_iff.2 hf]
  exact hmem

/-- The sections of a mapped region that has been filled. -/
theorem Loading.fits_copied (hl : Loading res ext own s m (L.withBases b)) {wh : Which}
    {sec : Section} (hb : b wh ≠ 0) (hsec : sec ∈ copied L wh) :
    Fits (L.withBases b) wh sec := by
  obtain ⟨h0, _, hc⟩ := mem_of_copied hsec
  refine hl.fits ?_ ?_ (by rw [copyable_withBases]; exact hc)
  · rw [Layout.region_withBases]; exact hb
  · rw [Layout.region_withBases]; exact h0

/-- Copies that are confined are of sections that no other overlaps. -/
theorem apart_of_confined {wh : Which} {sec sec' : Section}
    (hl : Fits (L.withBases b) wh sec) (hb : b wh ≠ 0) (hsec : sec ∈ (L.region wh).sections)
    (hsec' : sec' ∈ (L.region wh).sections) (hne : sec' ≠ sec)
    (hc : Confined s (copyWrite (L.withBases b) wh sec)) (x : ℕ) (hx : sec.Has x) :
    ¬ sec'.Has x := by
  intro hx'
  have hreg := L.region_withBases b wh
  have hbase : ((L.withBases b).region wh).base = b wh := by rw [hreg]
  have hocc : ∀ S ∈ (L.region wh).sections, S.Has x → Occupies (L.withBases b) wh S (b wh + x) := by
    intro S hS hSx
    unfold Section.Has at hSx
    exact ⟨by rw [hreg]; exact hS, by rw [hbase]; exact hb, by omega, by omega⟩
  have htouch := (copyWrite_own hl (by rw [hreg]; exact hsec) (b wh + x)).2 (hocc sec hsec hx)
  exact hc.neighbours _ htouch wh sec' (fun he => hne (Prod.mk.inj he).2) (hocc sec' hsec' hx')

end

end Linker

end Ospp
