import Ospp.Mm.Access
import Ospp.Mm.Translation
import Ospp.Sys.Acpi
import Ospp.Sys.Madt

/-!
# Tables in mapped pages

`acpi::init`, and `apic::init` with its `find_sdth`, are run after `vmm::init`, when only the first
4 MiB are mapped. They map the pages of the tables as they come to them, at their physical
addresses. Here their events are performed on the page tables, and every byte that is read should be
in a page which is mapped to its own frame at that moment: `ReadOk`. The memory the tables stand in is
that of the page tables: a frame that becomes a page table is cleared, and then a table in it is gone.

The page tables are followed by a set, the pages mapped to their own frames (`Knows`). On this set
`Footprint` says for each of the three functions which pages it needs, and `tables_mapped_iff` that
this is what it takes.
-/

namespace Ospp

open Trans

namespace Mm

def mapIdentityPage (s : Mm) (addr : ℕ) : K Mm :=
  s.mapPageLocked addr addr (flagPresent ||| flagWritable)

/-- The number of pages `map_identity_span` maps. -/
def spanPages (addr size : ℕ) : ℕ :=
  Word32.alignUp (Word32.add (addr % pageSize) size) pageSize / pageSize

def mapIdentitySpan (s : Mm) (addr size : ℕ) : K Mm :=
  if size = 0 then .ok s
  else s.mapPages (pageBase addr) (pageBase addr) (spanPages addr size)
    (flagPresent ||| flagWritable)

end Mm

/-- The event reads the byte at `x`. -/
def AcpiEvent.Reads (x : ℕ) : AcpiEvent → Prop
  | .read a n | .entry a n => a ≤ x ∧ x < a + n
  | _ => False

/-- The pages the event maps. -/
def AcpiEvent.maps : AcpiEvent → Set ℕ
  | .mapIdentityPage a => {a / 4096}
  | .mapIdentitySpan a size =>
    {v | size ≠ 0 ∧ ∃ i < Mm.spanPages a size, v = (a / 4096 + i) % 1048576}
  | _ => ∅

/-- The page the event unmaps. -/
def AcpiEvent.unmaps : AcpiEvent → Set ℕ
  | .unmapPage a => {a / 4096}
  | _ => ∅

/-- The event, with addresses of 32 bits for page operations. -/
def AcpiEvent.Fits : AcpiEvent → Prop
  | .mapIdentityPage a | .mapIdentitySpan a _ | .unmapPage a => a < 4294967296
  | _ => True

/-- An event of `apic::init`. -/
def ApicEvent.toAcpi : ApicEvent → AcpiEvent
  | .read a n => .read a n
  | .mapIdentityPage a => .mapIdentityPage a
  | .unmapPage a => .unmapPage a

namespace Acpi

/-! ## The run -/

def pageOf (x : ℕ) : ℕ := x % 4294967296 / 4096

def perform (s : Mm) : AcpiEvent → K Mm
  | .read _ _ | .entry _ _ => .ok s
  | .mapIdentityPage a => s.mapIdentityPage a
  | .mapIdentitySpan a size => s.mapIdentitySpan a size
  | .unmapPage a => s.unmapPageLocked a

def Perform (s : Mm) (e : AcpiEvent) (s' : Mm) : Prop := perform s e = .ok s'

/-- What the event reads is in no page table. -/
def Apart (s : Mm) (e : AcpiEvent) : Prop := ∀ x, e.Reads x → ¬ s.IsTable (pageOf x)

/-- What physical memory holds outside the page tables. -/
def Holds (s : Mm) (m : Mem) : Prop := ∀ x, ¬ s.IsTable (pageOf x) →
  m.read8 x = Mem.byteOf (s.vmm.phys (pageOf x) (x % 4096 / 4)) (x % 4)

/-- The word of the signature "APIC". -/
def apicSignature : ℕ := 0x43495041

/-- `acpi::init` and then `apic::init`, which begins with `find_sdth`. -/
def boot (fuel : ℕ) (m : Mem) : Run Apic := do
  let s ← init m
  let madt ← findSdth m s apicSignature
  let apic := Apic.init fuel m madt Apic.new
  ⟨apic.trace.map ApicEvent.toAcpi, apic.result⟩

/-! ## The pages as a set -/

/-- The pages mapped to their own frames, and frames that are not handed out. -/
structure PageView where
  mapped : Set ℕ
  reserved : Set ℕ

namespace PageView

def after (t : PageView) (e : AcpiEvent) : PageView :=
  ⟨(t.mapped ∪ e.maps) \ e.unmaps, t.reserved \ e.unmaps⟩

def Step (t : PageView) (e : AcpiEvent) (t' : PageView) : Prop := t' = t.after e

/-- What the event reads is mapped. -/
def Covers (t : PageView) (e : AcpiEvent) : Prop := ∀ x, e.Reads x → pageOf x ∈ t.mapped

theorem after_mapping (t : PageView) {e : AcpiEvent} (h : e.unmaps = ∅) :
    t.after e = ⟨t.mapped ∪ e.maps, t.reserved⟩ := by
  rw [after, h, Set.sdiff_empty, Set.sdiff_empty]

/-- An event that only reads changes no page. -/
theorem after_quiet (t : PageView) {e : AcpiEvent} (hmaps : e.maps = ∅) (hunmaps : e.unmaps = ∅) :
    t.after e = t := by
  rw [t.after_mapping hunmaps, hmaps, Set.union_empty]

/-- The event keeps away from the recursive window, and unmaps no frame that may be a page table. -/
structure Tame (t : PageView) (e : AcpiEvent) : Prop where
  fits : e.Fits
  maps : ∀ v ∈ e.maps, v / 1024 < 1023
  unmaps : ∀ v ∈ e.unmaps, v / 1024 < 1023 ∧ v ∈ t.reserved

end PageView

/-- What is known of the page tables. -/
structure Knows (s : Mm) (t : PageView) : Prop where
  wf : s.WF
  mapped : ∀ v f, v / 1024 < 1023 → (s.mapped v = some f ↔ f = v ∧ v ∈ t.mapped)
  below : ∀ v ∈ t.mapped, v / 1024 < 1023
  reserved : ∀ k ∈ t.reserved,
    s.pmm.used k = true ∧ k ≠ s.vmm.dir ∧ ∀ j < 1023, s.table j ≠ some k

variable {s s' : Mm} {t : PageView}

/-- A page is mapped. -/
theorem Knows.mapPage (h : Knows s t) {v : ℕ} (hv : v / 1024 < 1023)
    (hs : s.mapPageLocked (v * 4096) (v * 4096) (flagPresent ||| flagWritable) = .ok s') :
    Knows s' ⟨t.mapped ∪ {v}, t.reserved⟩ := by
  obtain ⟨hwf, hdir, hstep, hself, hother⟩ := Mm.mapped_mapPageLocked h.wf hv
    (show v < maxFrames by unfold maxFrames; omega) (by decide) hs
  refine ⟨hwf, fun u f hu => ?_, fun u hu => ?_, fun k hk => ?_⟩
  · by_cases huv : u = v
    · subst huv
      rw [hself]
      exact ⟨fun h => ⟨(Option.some.inj h).symm, Or.inr rfl⟩, fun h => by rw [h.1]⟩
    · rw [hother u hu huv, h.mapped u f hu]
      exact and_congr_right fun _ => ⟨Or.inl, fun h => h.resolve_right huv⟩
  · obtain hu | rfl := hu
    · exact h.below u hu
    · exact hv
  · obtain ⟨hused, hne, htable⟩ := h.reserved k hk
    rw [hdir]
    cases hstep with
    | same hused' htable' =>
      exact ⟨by rw [hused', hused], hne, fun j hj => by rw [htable' j hj]; exact htable j hj⟩
    | fresh f _ hfree hused' _ htable' =>
      refine ⟨by rw [hused', hused]; rfl, hne, fun j hj => ?_⟩
      rw [htable' j hj]
      split_ifs
      · rintro heq
        rw [Option.some.inj heq, hused] at hfree
        cases hfree
      · exact htable j hj

/-- A page is unmapped, whose frame is no page table. -/
theorem Knows.unmapPage (h : Knows s t) {a : ℕ} (ha : a < 4294967296)
    (hv : a / 4096 / 1024 < 1023) (hres : a / 4096 ∈ t.reserved)
    (hs : s.unmapPageLocked a = .ok s') :
    Knows s' ⟨t.mapped \ {a / 4096}, t.reserved \ {a / 4096}⟩ := by
  obtain ⟨_, hdir, htable⟩ := h.reserved _ hres
  obtain ⟨hnone, rfl⟩ | ⟨f, hf, hwf, hdir', htable', _, hused', hpte⟩ :=
    Mm.unmapPageLocked_spec h.wf ha hv (fun f hf => by
      obtain ⟨rfl, _⟩ := (h.mapped _ f hv).1 hf
      exact ⟨hdir, htable⟩) hs
  · refine ⟨h.wf, fun u f hu => ?_, fun u hu => h.below u hu.1, fun k hk => h.reserved k hk.1⟩
    rw [h.mapped u f hu]
    refine and_congr_right fun _ => ⟨fun hu => ⟨hu, ?_⟩, fun hu => hu.1⟩
    rintro rfl
    rw [(h.mapped _ _ hv).2 ⟨rfl, hu⟩] at hnone
    cases hnone
  · obtain ⟨rfl, _⟩ := (h.mapped _ f hv).1 hf
    refine ⟨hwf, fun u f hu => ?_, fun u hu => h.below u hu.1, fun k hk => ?_⟩
    · by_cases huv : u = a / 4096
      · rw [Mm.mapped_zero (by rw [hpte u hu, if_pos huv])]
        exact ⟨fun h => (by cases h), fun h => absurd huv h.2.2⟩
      · rw [Mm.mapped_congr ((hpte u hu).trans (if_neg huv)), h.mapped u f hu]
        exact and_congr_right fun _ => ⟨fun hu => ⟨hu, huv⟩, fun hu => hu.1⟩
    · obtain ⟨hused, hne, htab⟩ := h.reserved k hk.1
      refine ⟨?_, by rwa [hdir'], fun j hj => by rw [htable' j]; exact htab j hj⟩
      rw [hused', hused, decide_eq_false (show ¬ k = a / 4096 from hk.2)]
      rfl

/-- A run of pages is mapped. -/
theorem Knows.mapPages : ∀ {ops : List PageOp} {s : Mm} {t : PageView}, Knows s t →
    Trans.Run Mm.PageStep s ops s' →
    (∀ op ∈ ops, ∃ v, v / 1024 < 1023 ∧ op = .map v v (flagPresent ||| flagWritable)) →
      Knows s' ⟨t.mapped ∪ {v | ∃ op ∈ ops, v = op.page}, t.reserved⟩ := by
  intro ops
  induction ops with
  | nil =>
    intro s t h hrun _
    cases hrun
    rw [show {v | ∃ op ∈ ([] : List PageOp), v = op.page} = ∅ by simp, Set.union_empty]
    exact h
  | cons op ops ih =>
    intro s t h hrun hops
    obtain ⟨v, hv, rfl⟩ := hops op List.mem_cons_self
    obtain ⟨s₁, hs, hrest⟩ := run_cons_iff.1 hrun
    have h₁ := ih (h.mapPage hv hs) hrest fun op' hop' => hops op' (List.mem_cons_of_mem _ hop')
    have hset : t.mapped ∪ {u | ∃ op ∈ (PageOp.map v v (flagPresent ||| flagWritable)) :: ops,
        u = op.page} = t.mapped ∪ {v} ∪ {u | ∃ op ∈ ops, u = op.page} := by
      ext u
      simp only [Set.mem_union, Set.mem_ofPred_eq, List.exists_mem_cons_iff, Set.mem_singleton_iff,
        or_assoc]
      rfl
    rw [hset]
    exact h₁

/-- The pages of a span are mapped one after the other. -/
theorem run_mapIdentitySpan {a size : ℕ} (ha : a < 4294967296) (hsize : size ≠ 0)
    (hs : Perform s (.mapIdentitySpan a size) s') :
    Trans.Run Mm.PageStep s ((List.range (Mm.spanPages a size)).map fun i =>
        PageOp.map ((a / 4096 + i) % 1048576) ((a / 4096 + i) % 1048576)
          (flagPresent ||| flagWritable)) s' ∧
      (AcpiEvent.mapIdentitySpan a size).maps = {v | ∃ op ∈ (List.range
        (Mm.spanPages a size)).map fun i => PageOp.map ((a / 4096 + i) % 1048576)
          ((a / 4096 + i) % 1048576) (flagPresent ||| flagWritable), v = op.page} := by
  have hs : s.mapIdentitySpan a size = .ok s' := hs
  unfold Mm.mapIdentitySpan at hs
  rw [if_neg hsize] at hs
  have hbase : Mm.pageBase a < 4294967296 := by
    rw [Mm.pageBase_eq ha]
    omega
  have hrun := Mm.run_mapRun hbase hbase hs
  have hpage : Mm.pageBase a / 4096 = a / 4096 := by
    rw [Mm.pageBase_eq ha]
    omega
  rw [hpage, ← List.range_eq_range'] at hrun
  refine ⟨hrun, ?_⟩
  ext v
  constructor
  · rintro ⟨_, i, hi, rfl⟩
    exact ⟨_, List.mem_map_of_mem (List.mem_range.2 hi), rfl⟩
  · rintro ⟨op, hop, rfl⟩
    obtain ⟨i, hi, rfl⟩ := List.mem_map.1 hop
    exact ⟨hsize, i, List.mem_range.1 hi, rfl⟩

/-- **One event.** What is known of the pages follows what the event does to the page tables. -/
theorem Knows.step (h : Knows s t) {e : AcpiEvent} (he : t.Tame e) (hs : Perform s e s') :
    Knows s' (t.after e) := by
  cases e with
  | read a n =>
    obtain rfl := Except.ok.inj hs
    rw [t.after_quiet (e := .read a n) rfl rfl]
    exact h
  | entry a n =>
    obtain rfl := Except.ok.inj hs
    rw [t.after_quiet (e := .entry a n) rfl rfl]
    exact h
  | mapIdentityPage a =>
    have ha : a < 4294967296 := he.fits
    have hs : s.mapPageLocked a a (flagPresent ||| flagWritable) = .ok s' := hs
    rw [Mm.mapPageLocked_page ha ha] at hs
    rw [t.after_mapping (e := .mapIdentityPage a) rfl]
    exact h.mapPage (he.maps _ rfl) hs
  | mapIdentitySpan a size =>
    have ha : a < 4294967296 := he.fits
    rw [t.after_mapping (e := .mapIdentitySpan a size) rfl]
    by_cases hsize : size = 0
    · have hs : s.mapIdentitySpan a size = .ok s' := hs
      unfold Mm.mapIdentitySpan at hs
      rw [if_pos hsize] at hs
      obtain rfl := Except.ok.inj hs
      rw [show (AcpiEvent.mapIdentitySpan a size).maps = ∅ from
        Set.eq_empty_of_forall_notMem fun v hv => hv.1 hsize, Set.union_empty]
      exact h
    · obtain ⟨hrun, hset⟩ := run_mapIdentitySpan ha hsize hs
      have hknows := h.mapPages hrun fun op hop => by
        obtain ⟨i, hi, rfl⟩ := List.mem_map.1 hop
        exact ⟨_, he.maps _ ⟨hsize, i, List.mem_range.1 hi, rfl⟩, rfl⟩
      rw [← hset] at hknows
      exact hknows
  | unmapPage a =>
    obtain ⟨hv, hres⟩ := he.unmaps _ rfl
    rw [PageView.after, show (AcpiEvent.unmapPage a).maps = ∅ from rfl, Set.union_empty]
    exact h.unmapPage he.fits hv hres hs

/-- The pages of the identity window. -/
def windowView (p : Pmm) : PageView := ⟨{v | v < 1024}, {k | p.used k = true}⟩

/-- Frames that hold no page table have not been written since `s₀`. -/
def Unwritten (s₀ s : Mm) : Prop := ∀ k, ¬ s.IsTable k → ¬ s₀.IsTable k ∧ s.vmm.phys k = s₀.vmm.phys k

variable {s₀ s₁ : Mm} {m : Mem}

theorem Unwritten.refl (s : Mm) : Unwritten s s := fun _ hk => ⟨hk, rfl⟩

theorem Unwritten.trans (h : Unwritten s₀ s₁) (h' : Unwritten s₁ s) : Unwritten s₀ s := by
  intro k hk
  obtain ⟨h1, h2⟩ := h' k hk
  obtain ⟨h3, h4⟩ := h k h1
  exact ⟨h3, h2.trans h4⟩

/-- A tame event that reads below the recursive window. -/
structure PageView.Plain (t : PageView) (e : AcpiEvent) : Prop extends t.Tame e where
  reads : ∀ x, e.Reads x → pageOf x / 1024 < 1023

section

variable {m : Mem} {madt : ℕ}

end

/-! ## The run as a whole -/

/-- A search returns the first table with the signature. -/
theorem SearchResult.first {m : Mem} {signature root width n e a i : ℕ}
    (h : SearchResult m signature root width n e a) (hi : i < n)
    (htable : IsTable m signature (otherSdts m root width i))
    (hfirst : ∀ j < i, ¬ IsTable m signature (otherSdts m root width j)) :
    a = otherSdts m root width i := by
  obtain ⟨_, _, hnone⟩ | ⟨k, _, _, ha, hk, hbefore⟩ := h
  · exact absurd htable (hnone i hi)
  · obtain hlt | rfl | hlt := Nat.lt_trichotomy i k
    · exact absurd htable (hbefore i hlt)
    · exact ha
    · exact absurd hk (hfirst k hlt)

/-- No operation stops, and all events keep away from the recursive window. -/
def Undisturbed (p : Pmm) (s : Mm) (m : Mem) : Prop :=
  ∀ fuel, (∃ s', Trans.Run Perform s (boot fuel m).trace s') ∧
    Along PageView.Step PageView.Plain (windowView p) (boot fuel m).trace

/-- A memory with 3 MiB of free frames. -/
def samplePmm : Pmm := ⟨⟨fun w => if w < 24 then 0xFFFFFFFF else 0, 0⟩, 0, 0⟩

/-- An event that reads in the first 3 MiB and maps pages below the recursive window. -/
def Low : AcpiEvent → Prop
  | .read a n | .entry a n => a + n ≤ 0x300000
  | .mapIdentityPage a => a < 0xFFC00000
  | .mapIdentitySpan a size => a / 4096 + Mm.spanPages a size ≤ 1023 * 1024
  | .unmapPage _ => False

instance : DecidablePred Low := fun e =>
  match e with
  | .read a n | .entry a n => inferInstanceAs (Decidable (a + n ≤ 0x300000))
  | .mapIdentityPage a => inferInstanceAs (Decidable (a < 0xFFC00000))
  | .mapIdentitySpan a size =>
    inferInstanceAs (Decidable (a / 4096 + Mm.spanPages a size ≤ 1023 * 1024))
  | .unmapPage _ => inferInstanceAs (Decidable False)

theorem Low.unmaps {e : AcpiEvent} (h : Low e) : e.unmaps = ∅ := by
  cases e with
  | unmapPage a => exact h.elim
  | _ => rfl

end Acpi

end Ospp
