import Ospp.Mm.HeapRuns

/-!
# Memory comes back

The other direction of the account of the heap: the chunks that are marked as used are those of the
live blocks, so no chunk is lost (`Tracks`). When the last live block is freed, everything merges
into one chunk, the heap is cut to its initial size, and the state is the one the constructor has
left (`run_returns_memory`).
-/

namespace Ospp

open Cmd Trans Heap HeapAct

section

variable {env : HeapEnv} {s s' : Clients} {cs xs ys : List Chunk} {fl fl' : List ℕ} {c f : Chunk}
  {n nb e p : ℕ}

/-! ## Chunks that are made -/

theorem free_of_mem_restOf (hc : c ∈ restOf f nb) : c.used = false := by
  unfold restOf at hc
  split_ifs at hc
  · cases hc
    rfl
  · cases hc

theorem free_of_mem_trim {F : Chunk} (hF : F.used = false) (hc : c ∈ (trim F e).1) :
    c.used = false := by
  unfold trim at hc
  split_ifs at hc
  · rw [List.mem_singleton.1 hc, hF]
  · cases hc
  · rw [List.mem_singleton.1 hc]

/-- Of the chunks made out of a hole only the one for the block is used. -/
theorem addr_of_mem_carve (hc : c ∈ carve f nb) (hu : c.used = true) : c.addr = f.addr := by
  rw [carve_eq] at hc
  rcases List.mem_cons.1 hc with rfl | hc
  · rfl
  · rw [free_of_mem_restOf (Option.mem_toList.1 hc)] at hu
    cases hu

theorem addr_of_mem_alignedLayout (hc : c ∈ (alignedLayout f nb e).1) (hu : c.used = true) :
    c.addr = alignedAddr f.addr := by
  have hlead : ∀ d ∈ leadOf f.addr, d.used = false := by
    intro d hd
    unfold leadOf at hd
    split_ifs at hd
    · cases hd
    · rw [List.mem_singleton.1 hd]
  unfold alignedLayout at hc
  split_ifs at hc
  · simp only [List.mem_append, List.mem_singleton, Option.mem_toList] at hc
    rcases hc with (hc | rfl) | hc
    · rw [hlead c hc] at hu
      cases hu
    · rfl
    · rw [free_of_mem_restOf hc] at hu
      cases hu
  · simp only [List.mem_append, List.mem_singleton] at hc
    rcases hc with (hc | rfl) | hc
    · rw [hlead c hc] at hu
      cases hu
    · rfl
    · rw [free_of_mem_trim rfl hc] at hu
      cases hu

/-! ## The account -/

/-- The used chunks are those of the live blocks, and a heap without live blocks is a small one. -/
structure Tracks (s : Clients) (cs : List Chunk) (fl : List ℕ) : Prop where
  holds : Holds s cs fl
  owner : ∀ c ∈ cs, c.used = true → c.addr + 8 ∈ s.live.map Prod.fst
  idle : s.live = [] → s.heap.endAddr = 17825792

theorem Constructed.tracks (h : Constructed s) :
    Tracks s [⟨16777216, 1048576, false⟩] [16777216] := by
  refine ⟨h.holds, fun c hc hu => ?_, fun _ => ?_⟩
  · rw [List.mem_singleton.1 hc] at hu
    cases hu
  · obtain ⟨_, _, _, h4⟩ := h.wf.tiles
    exact h4.symm

/-- A block is handed out. -/
theorem Tracks.granted (hT : Tracks s cs fl) {mid : List Chunk} {a : ℕ}
    (hH : Holds s' (xs ++ mid ++ ys) fl') (hold : ∀ c, c.used = true → c ∈ xs ∨ c ∈ ys → c ∈ cs)
    (hmid : ∀ c ∈ mid, c.used = true → c.addr = a) (hlive : s'.live = (a + 8, n) :: s.live) :
    Tracks s' (xs ++ mid ++ ys) fl' := by
  refine ⟨hH, fun c hc hu => ?_, fun hnil => ?_⟩
  · rw [hlive, List.map_cons, List.mem_cons]
    simp only [List.mem_append] at hc
    rcases hc with (hc | hc) | hc
    · exact Or.inr (hT.owner c (hold c hu (Or.inl hc)) hu)
    · exact Or.inl (by rw [hmid c hc hu])
    · exact Or.inr (hT.owner c (hold c hu (Or.inr hc)) hu)
  · rw [hlive] at hnil
    cases hnil

/-- A released chunk without neighbours that are used is the whole heap. -/
theorem Heap.Around.alone {h : Heap} {L R : Option Chunk}
    (hA : Around h xs L c R ys fl Nowhere Nowhere) (hxs : ∀ x ∈ xs, x.used = false)
    (hys : ∀ y ∈ ys, y.used = false) :
    (merged L c R).addr = 16777216 ∧ (merged L c R).addr + (merged L c R).size = h.endAddr := by
  have hP := places hA.arena.tiles
  constructor
  · by_contra hne
    obtain ⟨x, hx, hxe⟩ := hP.xs.exists_last hne
    have := hA.before x hx hxe
    rw [hxs x hx] at this
    cases this
  · have hty := hP.ys
    cases ys with
    | nil => exact hty
    | cons y ys =>
      have := hA.after y (List.mem_cons_self ..) hty.1
      rw [hys y (List.mem_cons_self ..)] at this
      cases this

/-- A block is released. -/
theorem Tracks.released (hT : Tracks s cs fl) {L R : Option Chunk}
    (hcs : cs = xs ++ (L.toList ++ [c] ++ R.toList) ++ ys)
    (hAr : Around s.heap xs L c R ys fl Nowhere Nowhere)
    (hH : Holds s' (xs ++ (trim (merged L c R) s.heap.endAddr).1 ++ ys) fl')
    (hend : s'.heap.endAddr = (trim (merged L c R) s.heap.endAddr).2)
    (hlive : s'.live = s.live.filter fun b => b.1 != c.addr + 8) :
    Tracks s' (xs ++ (trim (merged L c R) s.heap.endAddr).1 ++ ys) fl' := by
  have howner : ∀ d ∈ xs ++ (trim (merged L c R) s.heap.endAddr).1 ++ ys, d.used = true →
      d.addr + 8 ∈ s'.live.map Prod.fst := by
    intro d hd hu
    have hside : d ∈ xs ∨ d ∈ ys := by
      simp only [List.mem_append] at hd
      rcases hd with (hd | hd) | hd
      · exact Or.inl hd
      · rw [free_of_mem_trim rfl hd] at hu
        cases hu
      · exact Or.inr hd
    have hne : d.addr ≠ c.addr := hAr.arena.tiles.addr_ne (b := c) (by simp) hside
    have hdc : d ∈ cs := by
      rw [hcs]
      rcases hside with hd | hd <;> simp [hd]
    obtain ⟨b, hb, hbd⟩ := List.mem_map.1 (hT.owner d hdc hu)
    rw [hlive]
    exact List.mem_map.2 ⟨b, List.mem_filter.2 ⟨hb, bne_iff_ne.2 (by omega)⟩, hbd⟩
  refine ⟨hH, howner, fun hnil => ?_⟩
  -- nothing is used any more, so the merged chunk reaches from one end of the heap to the other
  have hfree : ∀ d ∈ xs ++ (trim (merged L c R) s.heap.endAddr).1 ++ ys, d.used = false := by
    intro d hd
    by_contra hu
    have := howner d hd (by simpa using hu)
    rw [hnil] at this
    cases this
  obtain ⟨hstart, hstop⟩ := hAr.alone (fun x hx => hfree x (by simp [hx]))
    fun y hy => hfree y (by simp [hy])
  rw [hend, trim_end, if_pos hstop, hstart]
  rfl

/-- **One step.** -/
theorem Tracks.step (hT : Tracks s cs fl) {a : HeapAct} (hw : a.NoWrap) (hk : KeepsTags s a)
    (hs : Step s a s') : ∃ cs' fl', Tracks s' cs' fl' := by
  cases a with
  | alloc env n =>
    obtain ⟨e, xs, f, ys, fl', hserve, _, hH', _, hlive⟩ := hT.holds.alloc_step hw hk hs
    exact ⟨_, fl', hT.granted hH' (fun c hu hc => (hserve.used_mem hu).2 hc)
      (fun c hc hu => addr_of_mem_carve hc hu) hlive⟩
  | palignedAlloc env n =>
    obtain ⟨e, xs, f, ys, fl', hserve, hH', _, hlive⟩ := hT.holds.palignedAlloc_step hw hk hs
    exact ⟨_, fl', hT.granted hH' (fun c hu hc => (hserve.used_mem hu).2 hc)
      (fun c hc hu => addr_of_mem_alignedLayout hc hu) hlive⟩
  | free env p =>
    obtain ⟨c, xs, L, R, ys, fl', rfl, hcs, hAr, hH', hend, _, hlive⟩ := hT.holds.free_step hs
    exact ⟨_, fl', hT.released hcs hAr hH' hend hlive⟩
  | put a v =>
    obtain ⟨hH', hend, hlive⟩ := hT.holds.put_step hs
    exact ⟨cs, fl, hH', by rw [hlive]; exact hT.owner, by rw [hlive, hend]; exact hT.idle⟩

/-- A heap without used chunks is one free chunk. -/
theorem Heap.Arena.eq_singleton {h : Heap} (hA : Arena h cs fl Nowhere Nowhere)
    (hfree : ∀ c ∈ cs, c.used = false) :
    cs = [⟨16777216, h.endAddr - 16777216, false⟩] ∧ fl = [16777216] := by
  have hb := hA.listed.sane.bounds
  obtain rfl : cs = [⟨16777216, h.endAddr - 16777216, false⟩] := by
    have ht := hA.tiles
    cases cs with
    | nil =>
      have : 16777216 = h.endAddr := ht
      omega
    | cons c cs =>
      obtain ⟨haddr, _, _, ht⟩ := ht
      cases cs with
      | nil =>
        have hsize : 16777216 + c.size = h.endAddr := ht
        have hu := hfree c (List.mem_cons_self ..)
        obtain ⟨a, size, used⟩ := c
        dsimp only at haddr hsize hu
        rw [haddr, hu, ← hsize, Nat.add_sub_cancel_left]
      | cons d cs =>
        have hnext : d.addr = 16777216 + c.size := ht.1
        rcases hA.apart c (by simp) d (by simp) (by omega) with hu | hu
        · rw [hfree c (by simp)] at hu
          cases hu
        · rw [hfree d (by simp)] at hu
          cases hu
  refine ⟨rfl, ?_⟩
  have hmem : ∀ a, a ∈ fl ↔ a = 16777216 := by
    intro a
    rw [hA.free a]
    constructor
    · rintro ⟨c, hc, rfl, _⟩
      rw [List.mem_singleton.1 hc]
    · rintro rfl
      exact ⟨_, List.mem_singleton_self _, rfl, rfl⟩
  exact List.perm_singleton.1 ((List.perm_ext_iff_of_nodup hA.listed.nodup
    (List.nodup_singleton _)).2 fun a => by rw [hmem a, List.mem_singleton])

/-! ## Runs -/

/-- No chunk is lost: the used ones are those of the live blocks, and without live blocks the heap is
as the constructor has left it. -/
structure Recovers (s : Clients) : Prop where
  blocks : ∃ cs fl, Wf s.heap cs fl ∧
    ∀ p, (∃ c ∈ cs, c.used = true ∧ c.addr + 8 = p) ↔ p ∈ s.live.map Prod.fst
  empty : s.live = [] → Wf s.heap [⟨16777216, 1048576, false⟩] [16777216]

theorem Tracks.recovers (hT : Tracks s cs fl) : Recovers s := by
  refine ⟨⟨cs, fl, hT.holds.wf, fun p => ⟨?_, fun hp => ?_⟩⟩, fun hnil => ?_⟩
  · rintro ⟨c, hc, hu, rfl⟩
    exact hT.owner c hc hu
  · obtain ⟨b, hb, rfl⟩ := List.mem_map.1 hp
    obtain ⟨c, hc, hu, hca, _⟩ := hT.holds.chunk b hb
    exact ⟨c, hc, hu, hca⟩
  · have hfree : ∀ c ∈ cs, c.used = false := by
      intro c hc
      by_contra hu
      have := hT.owner c hc (by simpa using hu)
      rw [hnil] at this
      cases this
    have hwf := hT.holds.wf
    obtain ⟨rfl, rfl⟩ := hwf.eq_singleton hfree
    rw [hT.idle hnil] at hwf
    exact hwf

/-- **Memory comes back.** In every state that a run of tag-keeping steps reaches the used chunks are
those of the live blocks, and once every block has been freed the heap is the one the run has started
from: a single free chunk of one MiB. -/
theorem run_returns_memory {s₀ : Clients} {as : List HeapAct} (h₀ : Constructed s₀)
    (hC : Along Step (fun s a => a.NoWrap ∧ KeepsTags s a) s₀ as) (hrun : Run Step s₀ as s) :
    Recovers s := by
  have hinv : ∃ cs fl, Tracks s cs fl :=
    hrun.invariant (I := fun s => ∃ cs fl, Tracks s cs fl)
      (fun s a s' ⟨cs, fl, hT⟩ hc hs => hT.step hc.1 hc.2 hs) hC ⟨_, _, h₀.tracks⟩
  obtain ⟨cs, fl, hT⟩ := hinv
  exact hT.recovers

/-- Make the heap grow, and release everything. -/
def growingRun : List HeapAct :=
  [.alloc bareEnv 256, .alloc bareEnv 1200000, .free bareEnv 16777224, .free bareEnv 16777488]

theorem run_returns_memory_sample : ∃ s, Run Step startState growingRun s ∧ s.live = [] ∧
    Recovers s := by
  obtain ⟨s, hrun, hnil⟩ : ∃ s, Run Step startState growingRun s ∧ s.live.isEmpty = true :=
    run_of_any (f := next) (fun _ _ _ => Iff.rfl) (t := fun s => s.live.isEmpty) (by decide +kernel)
  refine ⟨s, hrun, List.isEmpty_iff.1 hnil, run_returns_memory startState_constructed ?_ hrun⟩
  refine Along.mono (fun s a h => of_decide_eq_true h) (along_of_check (f := next)
    (fun _ _ _ => Iff.rfl) (p := fun s a => decide (a.NoWrap ∧ KeepsTags s a)) ?_)
  decide +kernel

end

end Ospp
