import Ospp.Lib.Trans
import Ospp.Mm.HeapRequests

/-!
# Runs of the heap

Clients of the constructed heap allocate, release what they were given and write into it, in any
order; the kernel around the heap may change from one operation to the next. The invariant of a run
is the boundary-tag invariant together with a chunk for every live block. Each operation keeps it
under a condition on the heap before the operation, stated with the chunk the request will be served
from.
-/

namespace Ospp

open Cmd Trans

/-- The heap and its clients. -/
structure Clients where
  heap : Heap
  /-- The blocks that have been returned and not been freed, with the sizes asked for. -/
  live : List (ℕ × ℕ)

/-- What happens in a run. -/
inductive HeapAct where
  | alloc (env : HeapEnv) (n : ℕ)
  | palignedAlloc (env : HeapEnv) (n : ℕ)
  | free (env : HeapEnv) (p : ℕ)
  /-- A client stores a byte in a live block. -/
  | put (a : ℕ) (v : UInt8)

namespace HeapAct

open Heap

/-- Give the block to the client. -/
def grant (n : ℕ) (live : List (ℕ × ℕ)) : Except Halt (ℕ × Heap) → Option Clients
  | .ok (p, h) => some ⟨h, (p, n) :: live⟩
  | .error _ => none

/-- The state after an operation that returns. -/
def next (s : Clients) : HeapAct → Option Clients
  | .alloc env n => grant n s.live (Heap.alloc env n s.heap).result
  | .palignedAlloc env n => grant n s.live (Heap.palignedAlloc env n s.heap).result
  | .free env p =>
    if s.live.any fun b => b.1 == p then
      match (Heap.free env p s.heap).result with
      | .ok (_, h) => some ⟨h, s.live.filter fun b => b.1 != p⟩
      | .error _ => none
    else none
  | .put a v =>
    if s.live.any fun b => decide (b.1 ≤ a) && decide (a < b.1 + b.2) then
      some { s with heap := { s.heap with mem := s.heap.mem.write8 a v } }
    else none

/-- What the heap code does in an operation. -/
def trace (s : Clients) : HeapAct → List HeapEvent
  | .alloc env n => (Heap.alloc env n s.heap).trace
  | .palignedAlloc env n => (Heap.palignedAlloc env n s.heap).trace
  | .free env p => if s.live.any fun b => b.1 == p then (Heap.free env p s.heap).trace else []
  | .put _ _ => []

/-- The rounding of the request does not wrap. -/
def NoWrap : HeapAct → Prop
  | .alloc _ n => n ≤ 4294967284
  | .palignedAlloc _ n => n ≤ 4294963172
  | _ => True

def Step (s : Clients) (a : HeapAct) (s' : Clients) : Prop := next s a = some s'

end HeapAct

/-- The heap has just been constructed, by a kernel whose heap object lies in the identity window. -/
def Constructed (s : Clients) : Prop :=
  s.live = [] ∧ ∃ env h, 0 < h.head ∧ h.head % 4 = 0 ∧ h.head + 8 ≤ 4194304 ∧
    (Heap.construct env h).result = .ok ((), s.heap)

/-! ## The start -/

namespace Heap

section

variable {env : HeapEnv} {W : ℕ → Prop} {U : ℕ → ℕ → Prop} {S : ℕ → Prop} {M err : Prop} {h : Heap}
  {cs : List Chunk} {fl : List ℕ}

/-- A store to the list head. -/
theorem wp_store_head {a v : ℕ} {Q : Unit → Heap → Prop} (hlow : h.head + 8 ≤ 4194304)
    (ha : a = h.head ∨ a = h.head + 4) (hQ : Q () (h.write a v)) :
    Wp (Allowed h.head W U S M) err (store env a v) Q h := by
  have hmap : (h.mapped env a && h.mapped env (Word32.add a 3)) = true := by
    rw [Word32.add_eq (by omega), Bool.and_eq_true]
    unfold mapped
    rw [env.ext_identity _ (by omega), env.ext_identity _ (by omega)]
    simp
  unfold store
  refine .bind (.get ?_)
  rw [if_pos hmap]
  exact .bind (.emit (Or.inl ⟨Or.inr ha, Or.inr ha⟩) (.modify hQ))

/-- A heap of one free chunk. -/
theorem wf_singleton (hl : Listed h [16777216]) (hend : h.endAddr = 17825792)
    (hhead : h.mem.read32 16777220 = 1048577) : Wf h [⟨16777216, 1048576, false⟩] [16777216] := by
  have hone : ∀ c ∈ [(⟨16777216, 1048576, false⟩ : Chunk)], c = ⟨16777216, 1048576, false⟩ :=
    fun c hc => List.mem_singleton.1 hc
  have hpair : ∀ x ∈ [(⟨16777216, 1048576, false⟩ : Chunk)], ∀ y ∈ [(⟨16777216, 1048576, false⟩ :
      Chunk)], x.addr + x.size = y.addr → False := by
    intro x hx y hy hxy
    rw [hone x hx, hone y hy] at hxy
    exact absurd hxy (by decide)
  refine ⟨hl, ⟨rfl, by norm_num, by norm_num, ?_⟩, ⟨fun c hc => ?_,
    fun x hx y hy hxy => (hpair x hx y hy hxy).elim, fun x hx y hy hxy => (hpair x hx y hy hxy).elim,
    fun y hy _ => ?_⟩, fun x hx y hy hxy => (hpair x hx y hy hxy).elim, fun a => ?_⟩
  · rw [hend]
    rfl
  · rw [hone c hc]
    unfold hsize hused
    rw [hhead]
    decide
  · rw [hone y hy]
    unfold hpin
    rw [hhead]
    decide
  · constructor
    · intro ha
      exact ⟨_, List.mem_singleton_self _, (List.mem_singleton.1 ha).symm, rfl⟩
    · rintro ⟨c, hc, rfl, _⟩
      rw [hone c hc]
      exact List.mem_singleton_self _

/-- **`Heap::Heap`.** -/
theorem wp_construct (hpos : 0 < h.head) (h4 : h.head % 4 = 0) (hlow : h.head + 8 ≤ 4194304) :
    Wp (Allowed h.head (fun _ => True) (fun _ _ => True) (fun _ => True) True) True (construct env)
      (fun _ h' => Wf h' [⟨16777216, 1048576, false⟩] [16777216]) h := by
  have hsize : alignHeapSize heapMinSize = 1048576 := by decide
  have hend : Word32.add heapStart 1048576 = 17825792 := by decide
  unfold construct
  refine .bind (.get ?_)
  dsimp only
  rw [hsize, hend]
  refine .bind (wp_hassert (by decide) (.bind (wp_hassert (by decide) ?_)))
  rw [Word32.add_eq (show h.head + 4 < 4294967296 by omega)]
  refine .bind (wp_store_head hlow (Or.inl rfl) ?_)
  refine .bind (wp_store_head (h := h.write h.head h.head) hlow (Or.inr rfl) ?_)
  refine .ite (fun _ => .bind (.modify ?_)) fun _ => .fail trivial
  -- the new pages leave the list head alone
  let h₁ := ((h.write h.head h.head).write (h.head + 4) h.head).cut 16777216
  show Wp _ _ _ _ (grown env h₁ 17825792)
  have hend₁ : h₁.endAddr = 16777216 := rfl
  have hlink : h₁.mem.read32 h.head = h.head ∧ h₁.mem.read32 (h.head + 4) = h.head := by
    refine ⟨?_, read_write_self (by omega)⟩
    show ((h.write h.head h.head).write (h.head + 4) h.head).mem.read32 h.head = h.head
    rw [read_write_ne (by omega) h4 (by omega) (by omega) (by omega)]
    exact read_write_self (by omega)
  have hl : Listed (grown env h₁ 17825792) [] := by
    refine ⟨⟨hpos, h4, hlow, ?_⟩, ?_, List.nodup_nil, fun a ha => (by cases ha),
      fun a ha => (by cases ha)⟩
    · show HeapEndOk 17825792
      unfold HeapEndOk heapStart heapMinSize heapMaxAddr
      norm_num
    · show [h.head, h.head].IsChain (Linked (grown env h₁ 17825792).mem)
      rw [List.isChain_cons_cons]
      refine ⟨⟨?_, ?_⟩, .singleton _⟩
      · rw [read_grown (by omega) (by omega), hlink.1]
      · rw [read_grown (by omega) (by omega), hlink.2]
  have hs := hl.sane
  have hhd : h.head = (grown env h₁ 17825792).head := rfl
  rw [hhd]
  refine .bind (wp_store hs (Or.inl ⟨le_refl _, by rw [grown_endAddr]; decide⟩)
    (Or.inl trivial) ?_)
  have hl' : Listed ((grown env h₁ 17825792).write heapStart 0) [] :=
    hl.write (by decide) (by decide) (not_listWord hs (le_refl _) fun x hx => by cases hx)
  refine wp_enterChunk (h := (grown env h₁ 17825792).write heapStart 0) hl' (by decide) (le_refl _)
    (by rw [write_endAddr, grown_endAddr]; decide) (by decide) (by decide) (fun x hx => by cases hx)
    trivial (fun _ _ => ⟨trivial, trivial⟩) ?_
  intro h' fl' hl'' hend' _ hfl hhead _ _
  have hfl' : fl' = [16777216] := by
    have hmem : ∀ z, z ∈ fl' ↔ z = 16777216 := fun z => by simpa [heapStart] using hfl z
    exact List.Perm.eq_singleton ((List.perm_ext_iff_of_nodup hl''.nodup (List.nodup_singleton _)).2
      fun z => by rw [hmem, List.mem_singleton])
  subst hfl'
  exact wf_singleton hl'' hend' hhead

/-! ## Client writes -/

/-- A client's byte is outside every header, every link and every footer that counts. -/
theorem Wf.put (hA : Wf h cs fl) {c : Chunk} (hc : c ∈ cs) (hused : c.used = true) {a : ℕ}
    {v : UInt8} (hlo : c.addr + 8 ≤ a) (hhi : a < c.addr + c.size + 4) :
    Wf { h with mem := h.mem.write8 a v } cs fl := by
  have hcb := hA.mem_bounds hc
  have hsane := hA.listed.sane
  have hlow := hsane.head_low
  have hsame : ∀ z, z + 4 ≤ 33554440 → a < z ∨ z + 4 ≤ a →
      (h.mem.write8 a v).read32 z = h.mem.read32 z :=
    fun z h1 h2 => Mem.read32_write8_of_ne (by omega) (by omega) h2
  have hheader : ∀ d ∈ cs, (h.mem.write8 a v).read32 (d.addr + 4) = h.mem.read32 (d.addr + 4) := by
    intro d hd
    have hdb := hA.mem_bounds hd
    refine hsame _ (by omega) ?_
    rcases hA.tiles.sep hd hc with rfl | h1 | h1 <;> omega
  have hnode : ∀ u ∈ h.head :: fl.map (· + 8), u + 8 ≤ 33554440 ∧ (a < u ∨ u + 8 ≤ a) := by
    intro u hu
    rcases isNode_iff_mem.2 hu with rfl | ⟨x, hx, rfl⟩
    · omega
    · obtain ⟨d, hd, rfl, hdu⟩ := (hA.free x).1 hx
      have hdb := hA.mem_bounds hd
      rcases hA.tiles.sep hd hc with rfl | h1 | h1
      · rw [hused] at hdu
        cases hdu
      · omega
      · omega
  refine ⟨⟨⟨hsane.head_pos, hsane.head_aligned, hlow, hsane.endOk⟩, ?_, hA.listed.nodup,
    hA.listed.apart, hA.listed.range⟩, hA.tiles, ⟨fun d hd => ?_, fun x hx y hy hxy _ => ?_,
    fun x hx y hy hxy hu _ => ?_, fun y hy hy0 => ?_⟩, hA.apart, hA.free⟩
  · refine hA.listed.ring.congr (fun u hu => ?_) fun u hu => ?_
    · have := hnode u hu
      exact hsame u (by omega) (by omega)
    · have := hnode u hu
      exact hsame (u + 4) (by omega) (by omega)
  · have hshown := hA.tagged.shown d hd
    unfold hsize Heap.hused at hshown ⊢
    rw [hheader d hd]
    exact hshown
  · have hpin := hA.tagged.pin x hx y hy hxy id
    unfold Heap.hpin at hpin ⊢
    rw [hheader y hy]
    exact hpin
  · have hxb := hA.mem_bounds hx
    have hyb := hA.mem_bounds hy
    have hne : x ≠ c := by
      rintro rfl
      rw [hused] at hu
      cases hu
    -- the footer lies behind the free chunk, not behind the client's
    have hfoot : (h.mem.write8 a v).read32 y.addr = h.mem.read32 y.addr := by
      refine hsame _ (by omega) ?_
      rcases hA.tiles.sep hx hc with h1 | h1 | h1
      · exact absurd h1 hne
      · rcases hA.tiles.sep hy hc with rfl | h2 | h2 <;> omega
      · omega
    show (h.mem.write8 a v).read32 y.addr = x.size
    rw [hfoot]
    exact hA.tagged.foot x hx y hy hxy hu id
  · have hfirst := hA.tagged.first y hy hy0
    unfold hpin at hfirst ⊢
    rw [hheader y hy]
    exact hfirst

end

end Heap

/-- The first state of a run. -/
theorem Constructed.wf {s : Clients} (h : Constructed s) :
    Heap.Wf s.heap [⟨16777216, 1048576, false⟩] [16777216] := by
  obtain ⟨_, env, h₀, hpos, h4, hlow, hres⟩ := h
  exact (Heap.wp_construct hpos h4 hlow).returns hres

/-! ## The invariant -/

/-- The heap consists of the chunks `cs`, and every live block has one of its own, with room for
it. -/
structure Holds (s : Clients) (cs : List Chunk) (fl : List ℕ) : Prop where
  wf : Heap.Wf s.heap cs fl
  chunk : ∀ b ∈ s.live, ∃ c ∈ cs, c.used = true ∧ c.addr + 8 = b.1 ∧ b.2 + 4 ≤ c.size
  starts : (s.live.map Prod.fst).Nodup

theorem Constructed.holds {s : Clients} (h : Constructed s) :
    Holds s [⟨16777216, 1048576, false⟩] [16777216] := by
  have hlive := h.1
  refine ⟨h.wf, fun b hb => ?_, ?_⟩
  · rw [hlive] at hb
    cases hb
  · rw [hlive]
    exact List.nodup_nil

section

open Heap HeapAct

variable {env : HeapEnv} {W : ℕ → Prop} {U : ℕ → ℕ → Prop} {S : ℕ → Prop} {M : Prop}
  {s s' : Clients} {cs xs ys mid : List Chunk} {fl fl' : List ℕ} {f : Chunk} {n nb e p : ℕ} {h' : Heap}

/-- A new block, in a chunk that takes the place of a free one. -/
theorem Holds.grant (hH : Holds s cs fl) (hA : Wf h' (xs ++ mid ++ ys) fl')
    (hkeep : ∀ c ∈ cs, c.used = true → c ∈ xs ∨ c ∈ ys) {b : Chunk} (hb : b ∈ mid)
    (hu : b.used = true) (hn : n + 4 ≤ b.size) :
    Holds ⟨h', (b.addr + 8, n) :: s.live⟩ (xs ++ mid ++ ys) fl' := by
  refine ⟨hA, fun x hx => ?_, ?_⟩
  · rcases List.mem_cons.1 hx with rfl | hx
    · exact ⟨b, by simp [hb], hu, rfl, hn⟩
    · obtain ⟨c, hc, hcu, hca, hcs⟩ := hH.chunk x hx
      refine ⟨c, ?_, hcu, hca, hcs⟩
      rcases hkeep c hc hcu with hc | hc <;> simp [hc]
  · refine List.nodup_cons.2 ⟨fun hm => ?_, hH.starts⟩
    obtain ⟨x, hx, hxb⟩ := List.mem_map.1 hm
    obtain ⟨c, hc, hcu, hca, _⟩ := hH.chunk x hx
    exact hA.tiles.addr_ne hb (hkeep c hc hcu) (by omega)

theorem grant_eq_some {live : List (ℕ × ℕ)} {r : Except Halt (ℕ × Heap)}
    (h : HeapAct.grant n live r = some s') : ∃ p h', r = .ok (p, h') ∧ s' = ⟨h', (p, n) :: live⟩ := by
  cases r with
  | error _ => cases h
  | ok x =>
    cases h
    exact ⟨x.1, x.2, rfl, rfl⟩

/-- The request takes the last chunk whole, and the page behind the heap is mapped: `set_inuse`
writes there. -/
def Spills (env : HeapEnv) (h : Heap) (nb e : ℕ) : Prop :=
  ∃ f, served env h nb = some (f, e) ∧ ¬ nb + 16 ≤ f.size ∧ f.addr + f.size = e ∧
    env.ext (e / 4096) = true

/-- **What `alloc` does**, and what it touches. -/
theorem Holds.wp_alloc (hH : Holds s cs fl) (hn : n ≤ 4294967284)
    (hW : ∀ z, MetaWord cs z ∨ s.heap.endAddr ≤ z → W z)
    (hM : Remaps env s.heap (request2size n) → M)
    (hS : ∀ e, Spills env s.heap (request2size n) e → S e) :
    Wp (Allowed s.heap.head W U S M) True (Heap.alloc env n)
      (fun p h' => ∃ e xs f ys fl', Serves env s.heap cs fl (request2size n) e xs f ys ∧
        (¬ request2size n + 16 ≤ f.size → f.addr + f.size = e → env.ext (e / 4096) = true) ∧
        Arena h' (xs ++ carve f (request2size n) ++ ys) fl' Nowhere (staleFoot f (request2size n)) ∧
        h'.endAddr = e ∧ p = f.addr + 8) s.heap := by
  obtain ⟨h16, h8, _, hlt, _⟩ := request2size_bounds hn
  refine Heap.wp_alloc hH.wf rfl h16 h8 hlt (fun z hz => hW z (Or.inl hz))
    (fun e xs f ys hs z hz => hW z (hs.metaWord hH.wf hz)) (fun _ _ => trivial)
    (fun hnone hw => hM ⟨(found_eq_zero hH.wf.listed).2 hnone, hw⟩)
    (fun e xs f ys hs hfit htop => ⟨fun _ => trivial, fun hext => hS e ?_⟩) ?_
  · exact ⟨f, hs.served hH.wf, hfit, htop, hext⟩
  · intro e xs f ys h' fl' hs hext hA' hend _ _ _
    exact ⟨e, xs, f, ys, fl', hs, hext, hA', hend, rfl⟩

/-- **What `palignedAlloc` does**, and what it touches. -/
theorem Holds.wp_palignedAlloc (hH : Holds s cs fl) (hn : n ≤ 4294963172)
    (hW : ∀ z, MetaWord cs z ∨ s.heap.endAddr ≤ z → W z)
    (hM : Remaps env s.heap (request2size n + 4112) → M)
    (hS : ∀ e, Spills env s.heap (request2size n + 4112) e → S e)
    (hU : ∀ e xs f ys, Serves env s.heap cs fl (request2size n + 4112) e xs f ys →
      alignedAddr f.addr ≠ f.addr + 4104 → f.addr + f.size = e →
      U (trimEnd (alignedAddr f.addr + request2size n))
        (e - trimEnd (alignedAddr f.addr + request2size n))) :
    Wp (Allowed s.heap.head W U S M) True (Heap.palignedAlloc env n)
      (fun p h' => ∃ e xs f ys fl', Serves env s.heap cs fl (request2size n + 4112) e xs f ys ∧
        Arena h' (xs ++ (alignedLayout f (request2size n) e).1 ++ ys) fl'
          (fun z => z = alignedAddr f.addr ∧ StalePin (grown env s.heap e).mem f.addr)
          (alignedStale f (request2size n)) ∧
        h'.endAddr = (alignedLayout f (request2size n) e).2 ∧ p = alignedAddr f.addr + 8) s.heap := by
  refine Heap.wp_palignedAlloc hH.wf hn rfl (fun z hz => hW z (Or.inl hz))
    (fun e xs f ys hs z hz => hW z (hs.metaWord hH.wf hz)) (fun _ _ => trivial)
    (fun hnone hw => hM ⟨(found_eq_zero hH.wf.listed).2 hnone, hw⟩)
    (fun e xs f ys hs hfit htop => ⟨fun _ => trivial, fun hext => hS e ?_⟩) hU ?_
  · exact ⟨f, hs.served hH.wf, hfit, htop, hext⟩
  · intro e xs f ys h' fl' hs _ hA' hend _ _ _
    exact ⟨e, xs, f, ys, fl', hs, hA', hend, rfl⟩

/-! ## Steps that keep the tags -/

/-- **What keeps the boundary tags.** A hole that is split has to reach the end of the heap, since
the footer behind it is not rewritten; an aligned block must not take over an odd word. -/
def KeepsTags (s : Clients) : HeapAct → Prop
  | .alloc env n => ∀ f e, served env s.heap (request2size n) = some (f, e) →
      request2size n + 16 ≤ f.size → f.addr + f.size = e
  | .palignedAlloc env n => ∀ f e, served env s.heap (request2size n + 4112) = some (f, e) →
      ¬ StalePin (grown env s.heap e).mem f.addr ∧ (alignedAddr f.addr = f.addr + 4104 →
        request2size n + 4128 ≤ f.size → f.addr + f.size = e)
  | _ => True

/-- **What keeps the rest of the address space.** No request has a growth that wraps. -/
def KeepsSpace (s : Clients) : HeapAct → Prop
  | .alloc env n => ¬ Remaps env s.heap (request2size n)
  | .palignedAlloc env n => ¬ Remaps env s.heap (request2size n + 4112)
  | _ => True

/-- The operation maps nothing past the end of the address space. -/
def InSpace (s : Clients) (a : HeapAct) : Prop := ∀ b size, .remap b size ∉ trace s a

/-- A footer that is not vouched for behind the last chunk does no harm. -/
theorem Heap.Arena.wf_of_end {h : Heap} {Zf : ℕ → Prop} (hA : Arena h cs fl Nowhere Zf)
    (hZf : ∀ z, Zf z → h.endAddr ≤ z) : Wf h cs fl := by
  refine hA.weaken (fun _ _ h => h) fun c hc hz => ?_
  have hcb := hA.mem_bounds hc
  have := hZf _ hz
  omega

theorem Holds.alloc_step (hH : Holds s cs fl) (hn : n ≤ 4294967284)
    (hk : KeepsTags s (.alloc env n)) (hs : next s (.alloc env n) = some s') :
    ∃ e xs f ys fl', Serves env s.heap cs fl (request2size n) e xs f ys ∧
      (¬ request2size n + 16 ≤ f.size → f.addr + f.size = e → env.ext (e / 4096) = true) ∧
      Holds s' (xs ++ carve f (request2size n) ++ ys) fl' ∧ s'.heap.endAddr = e ∧
      s'.live = (f.addr + 8, n) :: s.live := by
  obtain ⟨p, h', hr, rfl⟩ := grant_eq_some hs
  obtain ⟨_, _, h4, _, _⟩ := request2size_bounds hn
  obtain ⟨e, xs, f, ys, fl', hserve, hext, hA, hend, rfl⟩ :=
    (hH.wp_alloc (W := fun _ => True) (U := fun _ _ => True) (S := fun _ => True) (M := True) hn
      (fun _ _ => trivial) (fun _ => trivial) fun _ _ => trivial).returns hr
  have ht := taken_bounds (hserve.bounds hH.wf (by omega)).2.2.1
  have hwf : Wf h' (xs ++ carve f (request2size n) ++ ys) fl' := by
    refine hA.wf_of_end fun z hz => ?_
    have := hk f e (hserve.served hH.wf) hz.1
    have := hz.2
    omega
  refine ⟨e, xs, f, ys, fl', hserve, hext, ?_, hend, rfl⟩
  refine hH.grant hwf (fun c hc hu => (hserve.used_mem hu).1 hc)
    (b := ⟨f.addr, taken f (request2size n), true⟩) ?_ rfl (by dsimp only; omega)
  rw [carve_eq]
  exact List.mem_cons_self ..

theorem Holds.palignedAlloc_step (hH : Holds s cs fl) (hn : n ≤ 4294963172)
    (hk : KeepsTags s (.palignedAlloc env n)) (hs : next s (.palignedAlloc env n) = some s') :
    ∃ e xs f ys fl', Serves env s.heap cs fl (request2size n + 4112) e xs f ys ∧
      Holds s' (xs ++ (alignedLayout f (request2size n) e).1 ++ ys) fl' ∧
      s'.heap.endAddr = (alignedLayout f (request2size n) e).2 ∧
      s'.live = (alignedAddr f.addr + 8, n) :: s.live := by
  obtain ⟨p, h', hr, rfl⟩ := grant_eq_some hs
  obtain ⟨_, h8, h4, _, _⟩ := request2size_bounds (show n ≤ 4294967284 by omega)
  obtain ⟨e, xs, f, ys, fl', hserve, hA, hend, rfl⟩ :=
    (hH.wp_palignedAlloc (W := fun _ => True) (U := fun _ _ => True) (S := fun _ => True)
      (M := True) hn (fun _ _ => trivial) (fun _ => trivial) (fun _ _ => trivial)
      fun _ _ _ _ _ _ _ => trivial).returns hr
  obtain ⟨_, _, hle, hs8, _⟩ := hserve.bounds hH.wf (by omega)
  obtain ⟨⟨b, hb, hbu, hba, hbn, _⟩, _⟩ := alignedLayout_parts (e := e) hle hs8 h8
  obtain ⟨hstale, hsplit⟩ := hk f e (hserve.served hH.wf)
  have hwf : Wf h' (xs ++ (alignedLayout f (request2size n) e).1 ++ ys) fl' := by
    refine Arena.wf_of_end (hA.weaken (fun _ _ h => (hstale h.2).elim) fun _ _ h => h)
      fun z hz => ?_
    have hlay : (alignedLayout f (request2size n) e).2 = e := by
      unfold alignedLayout
      rw [if_pos hz.1]
    have := hsplit hz.1 (by have := hz.2.1; omega)
    have := hz.2.2
    omega
  refine ⟨e, xs, f, ys, fl', hserve, ?_, hend, rfl⟩
  rw [← hba]
  exact hH.grant hwf (fun c hc hu => (hserve.used_mem hu).1 hc) hb hbu (by omega)

/-- The chunk of a live block, and what stands around it. -/
theorem Holds.around (hH : Holds s cs fl) (hp : (s.live.any fun b => b.1 == p) = true) :
    ∃ c xs L R ys, c.addr + 8 = p ∧ cs = xs ++ (L.toList ++ [c] ++ R.toList) ++ ys ∧
      Around s.heap xs L c R ys fl Nowhere Nowhere := by
  obtain ⟨b, hb, hbp⟩ := List.any_eq_true.1 hp
  obtain ⟨c, hc, hu, hca, _⟩ := hH.chunk b hb
  obtain ⟨xs, L, R, ys, hcs, hAr⟩ := hH.wf.exists_around hc hu id id id
  exact ⟨c, xs, L, R, ys, hca.trans (beq_iff_eq.1 hbp), hcs, hAr⟩

/-- The chunks of the other blocks stay. -/
theorem Holds.others (hH : Holds s cs fl) {c : Chunk} {L R : Option Chunk}
    (hcs : cs = xs ++ (L.toList ++ [c] ++ R.toList) ++ ys)
    (hAr : Around s.heap xs L c R ys fl Nowhere Nowhere) {b : ℕ × ℕ} (hb : b ∈ s.live)
    (hne : b.1 ≠ c.addr + 8) :
    ∃ d, (d ∈ xs ∨ d ∈ ys) ∧ d.used = true ∧ d.addr + 8 = b.1 ∧ b.2 + 4 ≤ d.size := by
  obtain ⟨d, hd, hdu, hda, hds⟩ := hH.chunk b hb
  refine ⟨d, ?_, hdu, hda, hds⟩
  rw [hcs, List.mem_append, List.mem_append] at hd
  rcases hd with (hd | hd) | hd
  · exact Or.inl hd
  · exfalso
    simp only [List.mem_append, Option.mem_toList, List.mem_singleton] at hd
    rcases hd with (hd | rfl) | hd
    · rw [hAr.left d hd] at hdu
      cases hdu
    · omega
    · rw [hAr.right d hd] at hdu
      cases hdu
  · exact Or.inr hd

theorem Holds.free_step (hH : Holds s cs fl) (hs : next s (.free env p) = some s') :
    ∃ c xs L R ys fl', c.addr + 8 = p ∧ cs = xs ++ (L.toList ++ [c] ++ R.toList) ++ ys ∧
      Around s.heap xs L c R ys fl Nowhere Nowhere ∧
      Holds s' (xs ++ (trim (merged L c R) s.heap.endAddr).1 ++ ys) fl' ∧
      s'.heap.endAddr = (trim (merged L c R) s.heap.endAddr).2 ∧
      ((merged L c R).addr + (merged L c R).size = s.heap.endAddr → 16 < (merged L c R).size) ∧
      s'.live = s.live.filter fun b => b.1 != p := by
  unfold next at hs
  dsimp only at hs
  split_ifs at hs with hlive
  obtain ⟨c, xs, L, R, ys, rfl, hcs, hAr⟩ := hH.around hlive
  have hw : Wp (Allowed s.heap.head (fun _ => True) (fun _ _ => True) (fun _ => True) True) True
      (Heap.free env (c.addr + 8)) (fun _ h' => ∃ fl', (((merged L c R).addr +
        (merged L c R).size = s.heap.endAddr → 16 < (merged L c R).size) ∧
        Wf h' (xs ++ (trim (merged L c R) s.heap.endAddr).1 ++ ys) fl' ∧
        h'.endAddr = (trim (merged L c R) s.heap.endAddr).2)) s.heap := by
    refine wp_freeUnlocked hAr (fun _ _ => trivial) (fun _ _ _ => trivial) (fun _ _ => trivial)
      (fun _ _ => trivial) fun h' fl' hbig hA' hend _ _ _ => ⟨fl', hbig, ?_, hend⟩
    exact hA'.weaken (fun _ _ h => h) fun _ _ h => h.1
  cases hr : (Heap.free env (c.addr + 8) s.heap).result with
  | error _ =>
    rw [hr] at hs
    cases hs
  | ok r =>
    rw [hr] at hs
    cases hs
    obtain ⟨fl', hbig, hA', hend⟩ := hw.returns hr
    refine ⟨c, xs, L, R, ys, fl', rfl, hcs, hAr, ⟨hA', fun b hb => ?_, ?_⟩, hend, hbig, rfl⟩
    · obtain ⟨hb, hne⟩ := List.mem_filter.1 hb
      obtain ⟨d, hd, hdu, hda, hds⟩ := hH.others hcs hAr hb (bne_iff_ne.1 hne)
      refine ⟨d, ?_, hdu, hda, hds⟩
      rcases hd with hd | hd <;> simp [hd]
    · exact hH.starts.sublist ((List.filter_sublist).map _)

theorem Holds.put_step (hH : Holds s cs fl) {a : ℕ} {v : UInt8}
    (hs : next s (.put a v) = some s') :
    Holds s' cs fl ∧ s'.heap.endAddr = s.heap.endAddr ∧ s'.live = s.live := by
  unfold next at hs
  dsimp only at hs
  split_ifs at hs with hlive
  cases hs
  obtain ⟨b, hb, hba⟩ := List.any_eq_true.1 hlive
  rw [Bool.and_eq_true, decide_eq_true_eq, decide_eq_true_eq] at hba
  obtain ⟨c, hc, hu, hca, hcs⟩ := hH.chunk b hb
  exact ⟨⟨hH.wf.put hc hu (by omega) (by omega), hH.chunk, hH.starts⟩, rfl, rfl⟩

/-- **One step.** -/
theorem Holds.step (hH : Holds s cs fl) {a : HeapAct} (hw : a.NoWrap) (hk : KeepsTags s a)
    (hs : Step s a s') : ∃ cs' fl', Holds s' cs' fl' := by
  cases a with
  | alloc env n =>
    obtain ⟨e, xs, f, ys, fl', _, _, hH', _⟩ := hH.alloc_step hw hk hs
    exact ⟨_, fl', hH'⟩
  | palignedAlloc env n =>
    obtain ⟨e, xs, f, ys, fl', _, hH', _⟩ := hH.palignedAlloc_step hw hk hs
    exact ⟨_, fl', hH'⟩
  | free env p =>
    obtain ⟨c, xs, L, R, ys, fl', _, _, _, hH', _⟩ := hH.free_step hs
    exact ⟨_, fl', hH'⟩
  | put a v => exact ⟨cs, fl, (hH.put_step hs).1⟩

/-- **A growth that does not wrap** leaves the rest of the address space alone. -/
theorem Holds.inSpace (hH : Holds s cs fl) {a : HeapAct} (hw : a.NoWrap) (hk : KeepsSpace s a) :
    InSpace s a := by
  intro b size ht
  cases a with
  | alloc env n =>
    exact (hH.wp_alloc (W := fun _ => True) (U := fun _ _ => True) (S := fun _ => True)
      (M := False) hw (fun _ _ => trivial) hk fun _ _ => trivial).1 _ ht
  | palignedAlloc env n =>
    exact (hH.wp_palignedAlloc (W := fun _ => True) (U := fun _ _ => True) (S := fun _ => True)
      (M := False) hw (fun _ _ => trivial) hk (fun _ _ => trivial)
      fun _ _ _ _ _ _ _ => trivial).1 _ ht
  | free env p =>
    dsimp only [trace] at ht
    split_ifs at ht with hlive
    · obtain ⟨c, xs, L, R, ys, rfl, _, hAr⟩ := hH.around hlive
      exact (wp_freeUnlocked (Q := fun _ _ => True) (W := fun _ => True) (U := fun _ _ => True)
        (S := fun _ => True) (M := False) hAr (fun _ _ => trivial) (fun _ _ _ => trivial)
        (fun _ _ => (trivial : True)) (fun _ _ => trivial)
        fun _ _ _ _ _ _ _ _ => trivial).1 _ ht
    · cases ht
  | put a v => cases ht

/-- **The boundary tags** hold in every state that a run of tag-keeping steps reaches whose growths
do not wrap, and the run leaves the rest of the address space alone. -/
theorem run_keeps_tags {s₀ : Clients} {as : List HeapAct} (h₀ : Constructed s₀)
    (hC : Along Step (fun s a => a.NoWrap ∧ KeepsTags s a ∧ KeepsSpace s a) s₀ as) :
    (∀ s, Run Step s₀ as s → ∃ cs fl, Wf s.heap cs fl) ∧ Along Step InSpace s₀ as := by
  have hstep : ∀ s a s', (∃ cs fl, Holds s cs fl) → (a.NoWrap ∧ KeepsTags s a ∧ KeepsSpace s a) →
      Step s a s' → ∃ cs fl, Holds s' cs fl :=
    fun s a s' ⟨cs, fl, hH⟩ ⟨h1, h2, _⟩ hs => hH.step h1 h2 hs
  constructor
  · intro s hrun
    obtain ⟨cs, fl, hH⟩ := hrun.invariant hstep hC ⟨_, _, h₀.holds⟩
    exact ⟨cs, fl, hH.wf⟩
  · exact Along.of_invariant hstep (fun s a ⟨cs, fl, hH⟩ hc => hH.inSpace hc.1 hc.2.2)
      ⟨_, _, h₀.holds⟩ hC

instance (m : Mem) (a : ℕ) : Decidable (StalePin m a) := inferInstanceAs (Decidable (_ ∧ _))

instance (a : HeapAct) : Decidable a.NoWrap :=
  match a with
  | .alloc _ n => inferInstanceAs (Decidable (n ≤ 4294967284))
  | .palignedAlloc _ n => inferInstanceAs (Decidable (n ≤ 4294963172))
  | .free _ _ => inferInstanceAs (Decidable True)
  | .put _ _ => inferInstanceAs (Decidable True)

/-- A condition on the chunk that serves a request is a test. -/
instance {o : Option (Chunk × ℕ)} {P : Chunk → ℕ → Prop} [∀ f e, Decidable (P f e)] :
    Decidable (∀ f e, o = some (f, e) → P f e) :=
  match o with
  | none => .isTrue fun _ _ h => by cases h
  | some (f, e) => decidable_of_iff (P f e) ⟨fun h _ _ he => by cases he; exact h, fun h => h f e rfl⟩

instance (s : Clients) (a : HeapAct) : Decidable (KeepsTags s a) :=
  match a with
  | .alloc _ _ => by unfold KeepsTags; infer_instance
  | .palignedAlloc _ _ => by unfold KeepsTags; infer_instance
  | .free _ _ => inferInstanceAs (Decidable True)
  | .put _ _ => inferInstanceAs (Decidable True)

instance (s : Clients) (a : HeapAct) : Decidable (KeepsSpace s a) :=
  match a with
  | .alloc _ _ => by unfold KeepsSpace; infer_instance
  | .palignedAlloc _ _ => by unfold KeepsSpace; infer_instance
  | .free _ _ => inferInstanceAs (Decidable True)
  | .put _ _ => inferInstanceAs (Decidable True)

/-- The heap before its construction, with the list head at `0x1000`. -/
def blankHeap : Heap := ⟨0, 4096, fun _ => 0⟩

/-- The heap as the constructor leaves it, without clients. -/
def startState : Clients where
  heap := match (construct bareEnv blankHeap).result with
    | .ok (_, h) => h
    | .error _ => blankHeap
  live := []

theorem startState_constructed : Constructed startState := by
  refine ⟨rfl, bareEnv, blankHeap, by decide, by decide, by decide, ?_⟩
  have hok : halts (construct bareEnv) blankHeap = none := by decide +kernel
  unfold halts at hok
  unfold startState
  dsimp only
  cases hr : (construct bareEnv blankHeap).result with
  | error _ => rw [hr] at hok; cases hok
  | ok r => rfl

/-- Allocate, write and release. -/
def sampleRun : List HeapAct :=
  [.alloc bareEnv 256, .alloc bareEnv 16, .put 16777224 7, .free bareEnv 16777224]

theorem run_keeps_tags_sample : ∃ s, Run Step startState sampleRun s ∧
    (∃ cs fl, Wf s.heap cs fl) ∧ Along Step InSpace startState sampleRun := by
  obtain ⟨s, hrun, _⟩ : ∃ s, Run Step startState sampleRun s ∧ true = true :=
    run_of_any (f := next) (fun _ _ _ => Iff.rfl) (t := fun _ => true) (by decide +kernel)
  have hsafe : (∀ s, Run Step startState sampleRun s → ∃ cs fl, Wf s.heap cs fl) ∧
      Along Step InSpace startState sampleRun := run_keeps_tags startState_constructed
    (Along.mono (fun s a h => of_decide_eq_true h) (along_of_check (f := next)
      (fun _ _ _ => Iff.rfl) (p := fun s a => decide (a.NoWrap ∧ KeepsTags s a ∧ KeepsSpace s a))
      (by decide +kernel)))
  exact ⟨s, hrun, hsafe.1 s hrun, hsafe.2⟩

/-- The chunk behind a given one, as its header tells. -/
theorem Heap.Arena.next_chunk {h : Heap} {Zp Zf : ℕ → Prop} (hA : Arena h cs fl Zp Zf) {a : ℕ}
    (ha : ∃ c ∈ cs, c.addr = a) (hne : a + hsize h.mem a ≠ h.endAddr) :
    ∃ c ∈ cs, c.addr = a + hsize h.mem a := by
  obtain ⟨c, hc, rfl⟩ := ha
  rw [(hA.tagged.shown c hc).1] at hne ⊢
  exact hA.tiles.exists_next hc hne

/-- Allocate, release, and allocate less from what was released. -/
def footerRun : List HeapAct :=
  [.alloc bareEnv 256, .alloc bareEnv 16, .free bareEnv 16777224, .alloc bareEnv 16]

/-- Splitting the hole leaves its old size in the footer. -/
theorem footerRun_breaks_tags : Constructed startState ∧ (∀ a ∈ footerRun, a.NoWrap) ∧
    ∃ s, Run Step startState footerRun s ∧ ¬ ∃ cs fl, Wf s.heap cs fl := by
  obtain ⟨s, hrun, hs⟩ : ∃ s, Run Step startState footerRun s ∧
      decide (s.heap.endAddr = 17825792 ∧ hsize s.heap.mem 16777216 = 24 ∧
        hsize s.heap.mem 16777240 = 240 ∧ hused s.heap.mem 16777240 = false ∧
        s.heap.mem.read32 16777480 = 264) = true :=
    run_of_any (f := next) (fun _ _ _ => Iff.rfl) (by decide +kernel)
  obtain ⟨hend, h1, h2, h3, h4⟩ := of_decide_eq_true hs
  refine ⟨startState_constructed, by decide, s, hrun, ?_⟩
  rintro ⟨cs, fl, hA⟩
  have hfirst : ∃ c ∈ cs, c.addr = 16777216 := by
    have ht := hA.tiles
    cases cs with
    | nil =>
      rw [hend] at ht
      exact absurd ht (by decide)
    | cons c cs => exact ⟨c, List.mem_cons_self .., ht.1⟩
  obtain ⟨x, hx, hxa⟩ := hA.next_chunk hfirst (by rw [h1, hend]; decide)
  rw [h1] at hxa
  obtain ⟨y, hy, hya⟩ := hA.next_chunk (a := 16777240) ⟨x, hx, hxa⟩ (by rw [h2, hend]; decide)
  rw [h2] at hya
  have hshown := hA.tagged.shown x hx
  rw [hxa, h2, h3] at hshown
  have hfoot := hA.tagged.foot x hx y hy (by omega) hshown.2.symm id
  rw [hya, h4] at hfoot
  omega

/-! ## Client safety -/

/-- The live blocks lie in the heap, apart from each other. -/
structure BlocksSafe (s : Clients) : Prop where
  inside : ∀ b ∈ s.live, heapStart ≤ b.1 ∧ b.1 + b.2 ≤ s.heap.endAddr
  apart : s.live.Pairwise fun b d => b.1 + b.2 ≤ d.1 ∨ d.1 + d.2 ≤ b.1

/-- The bytes of the block are neither written nor unmapped. Without its page directory the kernel
has no mapping left. -/
def HeapEvent.Misses (b : ℕ × ℕ) : HeapEvent → Prop
  | .write a _ => a + 4 ≤ b.1 ∨ b.1 + b.2 ≤ a
  | .unmap a size => a + size ≤ b.1 ∨ b.1 + b.2 ≤ a
  | .remap _ _ => False
  | _ => True

/-- The operation leaves every live block alone that it does not free. -/
def Spares (s : Clients) (a : HeapAct) : Prop :=
  ∀ b ∈ s.live, (∀ env, a ≠ .free env b.1) → ∀ t ∈ trace s a, t.Misses b

/-- Where the free chunk that a release leaves behind starts. -/
def mergeStart (h : Heap) (a : ℕ) : ℕ := if hpin h.mem a then a else a - h.mem.read32 a

/-- Where it ends. -/
def mergeEnd (h : Heap) (a : ℕ) : ℕ :=
  if a + hsize h.mem a < h.endAddr ∧ hused h.mem (a + hsize h.mem a) = false then
    a + hsize h.mem a + hsize h.mem (a + hsize h.mem a)
  else a + hsize h.mem a

/-- **What keeps the blocks in the heap.** A block that ends where the heap ends must not need the
word behind it, and the heap must not be cut where a block needs that word. -/
def KeepsBlocks (s : Clients) : HeapAct → Prop
  | .alloc env n => ∀ f e, served env s.heap (request2size n) = some (f, e) →
      ¬ request2size n + 16 ≤ f.size → f.addr + f.size = e → env.ext (e / 4096) = true →
      n + 8 ≤ f.size
  | .palignedAlloc env n => ∀ f e, served env s.heap (request2size n + 4112) = some (f, e) →
      ¬ Overhangs f n e
  | .free _ p => mergeEnd s.heap (p - 8) = s.heap.endAddr →
      trimEnd (mergeStart s.heap (p - 8)) = mergeStart s.heap (p - 8) →
      ∀ b ∈ s.live, b.1 ≠ p → b.1 < mergeStart s.heap (p - 8) →
        b.1 + b.2 ≤ mergeStart s.heap (p - 8)
  | .put _ _ => True

/-- The tags tell where the merged chunk lies. -/
theorem Heap.Around.merge_eq {h : Heap} {c : Chunk} {L R : Option Chunk}
    (hA : Around h xs L c R ys fl Nowhere Nowhere) :
    mergeStart h c.addr = (merged L c R).addr ∧
      mergeEnd h c.addr = (merged L c R).addr + (merged L c R).size := by
  have hP := places hA.arena.tiles
  have hc : c ∈ xs ++ (L.toList ++ [c] ++ R.toList) ++ ys := by simp
  have hcb := hA.arena.mem_bounds hc
  have hm := hA.merged_bounds
  have hshown := hA.arena.tagged.shown c hc
  unfold mergeStart mergeEnd
  rw [hshown.1]
  constructor
  · cases hL : L with
    | some x =>
      obtain ⟨h1, h2, _, _⟩ := hP.left x hL
      have hx : x ∈ xs ++ (L.toList ++ [c] ++ R.toList) ++ ys := by simp [hL]
      have hfree := hA.left x hL
      rw [if_neg (by rw [hA.arena.tagged.pin x hx c hc h2 id, hfree]; decide),
        hA.arena.tagged.foot x hx c hc h2 hfree id, ← hL, ← h1]
      omega
    | none =>
      have hstart := hP.noleft hL
      rw [if_pos, hstart, hL]
      by_cases hfirst : c.addr = 16777216
      · exact hA.arena.tagged.first c hc hfirst
      · obtain ⟨x, hx, hxc⟩ := hA.arena.tiles.exists_prev hc hfirst
        rw [hA.arena.tagged.pin x hx c hc hxc id]
        rw [List.mem_append, List.mem_append] at hx
        rcases hx with (hx | hx) | hx
        · exact hA.before x hx (by omega)
        · simp only [hL, Option.toList_none, List.nil_append, List.mem_append, List.mem_singleton,
            Option.mem_toList] at hx
          rcases hx with rfl | hx
          · omega
          · have := hP.right x hx
            omega
        · have := hP.ys.mem hx
          omega
  · cases hR : R with
    | some y =>
      obtain ⟨h1, h2, _, h3⟩ := hP.right y hR
      have hy : y ∈ xs ++ (L.toList ++ [c] ++ R.toList) ++ ys := by simp [hR]
      have hyb := hA.arena.mem_bounds hy
      have hyshown := hA.arena.tagged.shown y hy
      rw [hA.right y hR] at hyshown
      rw [← h1, if_pos ⟨by omega, hyshown.2⟩, hyshown.1, ← hR]
      exact h3
    | none =>
      have hend := hP.noright hR
      rw [if_neg, hend, hR]
      rintro ⟨hlt, hfree⟩
      obtain ⟨y, hy, hyc⟩ := hA.arena.tiles.exists_next hc (by omega)
      rw [← hyc, (hA.arena.tagged.shown y hy).2] at hfree
      rw [List.mem_append, List.mem_append] at hy
      rcases hy with (hy | hy) | hy
      · have := hP.xs.mem hy
        omega
      · simp only [hR, Option.toList_none, List.append_nil, List.mem_append, List.mem_singleton,
          Option.mem_toList] at hy
        rcases hy with hy | rfl
        · have := hP.left y hy
          omega
        · omega
      · rw [hA.after y hy (by omega)] at hfree
        cases hfree

theorem Holds.blocksSafe (hH : Holds s cs fl)
    (hin : ∀ b ∈ s.live, b.1 + b.2 ≤ s.heap.endAddr) : BlocksSafe s := by
  refine ⟨fun b hb => ⟨?_, hin b hb⟩, ?_⟩
  · obtain ⟨c, hc, _, hca, _⟩ := hH.chunk b hb
    have := hH.wf.mem_bounds hc
    unfold heapStart
    omega
  · refine (List.pairwise_map.1 hH.starts).imp_of_mem fun {b d} hb hd hne => ?_
    obtain ⟨x, hx, _, hxa, hxs⟩ := hH.chunk b hb
    obtain ⟨y, hy, _, hya, hys⟩ := hH.chunk d hd
    rcases hH.wf.tiles.sep hx hy with rfl | h1 | h1
    · omega
    · exact Or.inl (by omega)
    · exact Or.inr (by omega)

/-- No word that heap code may write belongs to a live block. -/
theorem Holds.word_misses (hH : Holds s cs fl) {b : ℕ × ℕ} (hb : b ∈ s.live)
    (hin : b.1 + b.2 ≤ s.heap.endAddr) {z : ℕ} (hz : MetaWord cs z ∨ s.heap.endAddr ≤ z) :
    z + 4 ≤ b.1 ∨ b.1 + b.2 ≤ z := by
  obtain ⟨c, hc, hcu, hca, hcs⟩ := hH.chunk b hb
  have hcb := hH.wf.mem_bounds hc
  rcases hz with (⟨d, hd, rfl⟩ | ⟨d, hd, hdu, h1, h2⟩) | hz
  · have hdb := hH.wf.mem_bounds hd
    rcases hH.wf.tiles.sep hd hc with rfl | h3 | h3 <;> omega
  · rcases hH.wf.tiles.sep hd hc with rfl | h3 | h3
    · rw [hcu] at hdu
      cases hdu
    · omega
    · omega
  · exact Or.inr (by omega)

/-- The events of an operation that writes and unmaps elsewhere. -/
theorem misses_of_allowed (hd : ℕ) {b : ℕ × ℕ} (hhd : hd + 8 ≤ b.1) {t : HeapEvent}
    (ht : Allowed hd (fun z => z + 4 ≤ b.1 ∨ b.1 + b.2 ≤ z) (fun a _ => b.1 + b.2 ≤ a)
      (fun e => b.1 + b.2 ≤ e) False t) : t.Misses b := by
  cases t with
  | read a e => trivial
  | write a e =>
    rcases ht with ⟨_, hw | rfl | rfl⟩ | ⟨he, rfl⟩
    · exact hw
    · exact Or.inl (by omega)
    · exact Or.inl (by omega)
    · exact Or.inr (by omega)
  | unmap a size => exact Or.inr ht
  | remap a size => exact ht
  | retry d => trivial

/-- A request leaves the end of the heap where it was, or behind. -/
theorem served_end_le {h : Heap} (he : h.endAddr % 4096 = 0) (hnb : 0 < nb)
    (hs : served env h nb = some (f, e)) : h.endAddr ≤ e := by
  have hg := grownEnd_bounds he hnb
  unfold served at hs
  split_ifs at hs <;> simp only [Option.some.injEq, Prod.mk.injEq] at hs <;> omega

/-- Where the parts of the heap that serves a request lie. -/
theorem Heap.Serves.sides {h : Heap} (hA : Wf h cs fl) (hs : Serves env h cs fl nb e xs f ys)
    {c : Chunk} : (c ∈ xs → c.addr + c.size ≤ f.addr) ∧ (c ∈ ys → f.addr + f.size ≤ c.addr ∧
      c.addr + c.size ≤ e) := by
  cases hs with
  | hole hcs _ _ _ =>
    have ht := hA.tiles
    rw [hcs, List.append_assoc, List.singleton_append] at ht
    obtain ⟨hx, _, _, hy⟩ := ht.split
    exact ⟨fun hc => (hx.mem hc).2.1, fun hc => ⟨(hy.mem hc).1, (hy.mem hc).2.1⟩⟩
  | grow _ _ hE => exact ⟨fun hc => ((hE.tiles hA.tiles).1.mem hc).2.1, fun hc => by cases hc⟩

/-- Where the heap ends after a release. -/
theorem trim_end (F : Chunk) (e : ℕ) :
    (trim F e).2 = if F.addr + F.size = e then trimEnd F.addr else e := by
  unfold trim
  split_ifs <;> first | rfl | omega

/-- **A step leaves the live blocks alone.** -/
theorem Holds.spares (hH : Holds s cs fl) (hin : ∀ b ∈ s.live, b.1 + b.2 ≤ s.heap.endAddr)
    {a : HeapAct} (hw : a.NoWrap) (hsp : KeepsSpace s a) (hk : KeepsBlocks s a) :
    Spares s a := by
  have hb4 := hH.wf.listed.sane.bounds
  have hlow := hH.wf.listed.sane.head_low
  intro b hb hnot t ht
  obtain ⟨d, hd, hdu, hda, hds⟩ := hH.chunk b hb
  have hdb := hH.wf.mem_bounds hd
  have hbin := hin b hb
  refine misses_of_allowed s.heap.head (by omega) ?_
  cases a with
  | alloc env n =>
    have hn : n ≤ 4294967284 := hw
    obtain ⟨h16, _⟩ := request2size_bounds hn
    refine (hH.wp_alloc hn (fun z hz => hH.word_misses hb hbin hz) hsp ?_ :
      Wp _ _ (Heap.alloc env n) _ _).1 t ht
    rintro e ⟨f, hf, _⟩
    have := served_end_le hb4.1 (by omega) hf
    omega
  | palignedAlloc env n =>
    have hn : n ≤ 4294963172 := hw
    obtain ⟨h16, _⟩ := request2size_bounds (show n ≤ 4294967284 by omega)
    refine (hH.wp_palignedAlloc hn (fun z hz => hH.word_misses hb hbin hz) hsp ?_ ?_ :
      Wp _ _ (Heap.palignedAlloc env n) _ _).1 t ht
    · rintro e ⟨f, hf, _⟩
      have := served_end_le hb4.1 (by omega) hf
      omega
    · intro e xs f ys hs hne htop
      obtain ⟨hlo, hf8, hle, _, hfe, _⟩ := hs.bounds hH.wf (by omega)
      have hal := alignedAddr_bounds hf8
      have htb := trimEnd_bounds (h := grown env s.heap e) (hs.sane hH.wf (by omega))
        (b := alignedAddr f.addr + request2size n) (by omega) (by rw [grown_endAddr]; omega)
      -- what is cut off lies behind the hole, and the block before it
      have hside := hs.sides hH.wf (c := d)
      rcases (hs.used_mem hdu).1 hd with hx | hy
      · have := hside.1 hx
        omega
      · have := hside.2 hy
        omega
  | free env p =>
    have hlive : (s.live.any fun b => b.1 == p) = true := by
      by_contra hno
      dsimp only [trace] at ht
      rw [if_neg hno] at ht
      cases ht
    dsimp only [trace] at ht
    rw [if_pos hlive] at ht
    obtain ⟨c, xs, L, R, ys, rfl, hcs, hAr⟩ := hH.around hlive
    have hbne : b.1 ≠ c.addr + 8 := fun hbp => hnot env (by rw [hbp])
    obtain ⟨hstart, hend⟩ := hAr.merge_eq
    have hc : c ∈ cs := by rw [hcs]; simp
    have hP := places hAr.arena.tiles
    have hmb := hAr.merged_bounds
    obtain ⟨d', hd', _, hda', hds'⟩ := hH.others hcs hAr hb hbne
    refine (wp_freeUnlocked (Q := fun _ _ => True) hAr
      (fun z hz => hH.word_misses hb hbin (Or.inl (by rw [hcs]; exact hz))) (fun z h1 h2 => ?_)
      (fun _ _ => trivial) (fun htop hbig => ?_) fun _ _ _ _ _ _ _ _ => trivial :
      Wp _ True (Heap.freeUnlocked env (c.addr + 8)) _ _).1 t ht
    · rcases hH.wf.tiles.sep hd hc with rfl | h3 | h3 <;> omega
    · have htb := trimEnd_bounds hAr.arena.listed.sane (b := (merged L c R).addr) hmb.1 (by omega)
      have hcut := hk (by rw [Nat.add_sub_cancel, hend, htop])
      rw [Nat.add_sub_cancel, hstart] at hcut
      rcases hd' with hx | hy
      · have := hP.xs.mem hx
        rcases htb.2.2 with hsame | hmore
        · rw [hsame]
          exact hcut hsame b hb hbne (by omega)
        · omega
      · have := hP.ys.mem hy
        omega
  | put a v => cases ht

/-- Blocks stay inside the heap where it is cut behind an aligned block. -/
theorem alignedLayout_end_eq (hf8 : f.addr % 8 = 0) (hle : nb + 4112 ≤ f.size)
    (htop : f.addr + f.size ≠ e) : (alignedLayout f nb e).2 = e := by
  have hal := alignedAddr_bounds hf8
  unfold alignedLayout
  split_ifs with hlong
  · rfl
  · dsimp only
    rw [trim_end, if_neg]
    dsimp only
    omega

/-- **One step**, with the blocks inside the heap. -/
theorem Holds.step_inside (hH : Holds s cs fl) (hin : ∀ b ∈ s.live, b.1 + b.2 ≤ s.heap.endAddr)
    {a : HeapAct} (hw : a.NoWrap) (hk : KeepsTags s a) (hb : KeepsBlocks s a) (hs : Step s a s') :
    ∃ cs' fl', Holds s' cs' fl' ∧ ∀ b ∈ s'.live, b.1 + b.2 ≤ s'.heap.endAddr := by
  have hb4 := hH.wf.listed.sane.bounds
  cases a with
  | alloc env n =>
    obtain ⟨_, _, h4, _, _⟩ := request2size_bounds hw
    obtain ⟨e, xs, f, ys, fl', hserve, hext, hH', hend, hlive⟩ := hH.alloc_step hw hk hs
    obtain ⟨_, _, hle, hs8, hfe, hee, _⟩ := hserve.bounds hH.wf (by omega)
    refine ⟨_, fl', hH', fun b hbl => ?_⟩
    rw [hlive] at hbl
    rw [hend]
    rcases List.mem_cons.1 hbl with rfl | hbl
    · dsimp only
      by_cases hfit : request2size n + 16 ≤ f.size
      · omega
      · by_cases htop : f.addr + f.size = e
        · have := hb f e (hserve.served hH.wf) hfit htop (hext hfit htop)
          omega
        · omega
    · exact (hin b hbl).trans hee
  | palignedAlloc env n =>
    have hn : n ≤ 4294963172 := hw
    obtain ⟨_, _, h4, _, _⟩ := request2size_bounds (show n ≤ 4294967284 by omega)
    obtain ⟨e, xs, f, ys, fl', hserve, hH', hend, hlive⟩ := hH.palignedAlloc_step hw hk hs
    obtain ⟨hlo, hf8, hle, _, hfe, hee, _⟩ := hserve.bounds hH.wf (by omega)
    have hal := alignedAddr_bounds hf8
    have hnew := (alignedLayout_end (hserve.sane hH.wf (by omega)) hf8 hlo hle hfe h4).2
      (hb f e (hserve.served hH.wf))
    refine ⟨_, fl', hH', fun b hbl => ?_⟩
    rw [hlive] at hbl
    rw [hend]
    rcases List.mem_cons.1 hbl with rfl | hbl
    · exact hnew
    · have hbin := hin b hbl
      obtain ⟨d, hd, hdu, hda, hds⟩ := hH.chunk b hbl
      have hdb := hH.wf.mem_bounds hd
      have hside := hserve.sides hH.wf (c := d)
      rcases (hserve.used_mem hdu).1 hd with hx | hy
      · have := hside.1 hx
        omega
      · have := hside.2 hy
        rw [alignedLayout_end_eq hf8 hle (by omega)]
        omega
  | free env p =>
    obtain ⟨c, xs, L, R, ys, fl', rfl, hcs, hAr, hH', hend, hbig, hlive⟩ := hH.free_step hs
    obtain ⟨hstart, hstop⟩ := hAr.merge_eq
    have hP := places hAr.arena.tiles
    have hmb := hAr.merged_bounds
    refine ⟨_, fl', hH', fun b hbl => ?_⟩
    rw [hlive] at hbl
    obtain ⟨hbl, hne⟩ := List.mem_filter.1 hbl
    have hbne : b.1 ≠ c.addr + 8 := bne_iff_ne.1 hne
    obtain ⟨d, hd, _, hda, hds⟩ := hH.others hcs hAr hbl hbne
    rw [hend, trim_end]
    split_ifs with htop
    · have htb := trimEnd_bounds hAr.arena.listed.sane hmb.1 (b := (merged L c R).addr)
        (by have := hbig htop; omega)
      have hcut := hb (by rw [Nat.add_sub_cancel, hstop, htop])
      rw [Nat.add_sub_cancel, hstart] at hcut
      have hbin := hin b hbl
      rcases hd with hx | hy
      · have hxb := hP.xs.mem hx
        rcases htb.2.2 with hsame | hmore
        · rw [hsame]
          exact hcut hsame b hbl hbne (by omega)
        · omega
      · have := hP.ys.mem hy
        omega
    · exact hin b hbl
  | put a v =>
    obtain ⟨hH', hend, hlive⟩ := hH.put_step hs
    refine ⟨cs, fl, hH', ?_⟩
    rw [hlive, hend]
    exact hin

/-- **What keeps the blocks** of the clients: the tags, the rest of the address space, and the blocks
in the heap. -/
def KeepsClients (s : Clients) (a : HeapAct) : Prop :=
  KeepsTags s a ∧ KeepsSpace s a ∧ KeepsBlocks s a

/-- **Client safety.** Along every run whose steps keep the tags, the address space and the blocks,
the live blocks lie in the heap, apart from each other, and no step writes to or unmaps a block it
does not free. -/
theorem run_keeps_blocks {s₀ : Clients} {as : List HeapAct} (h₀ : Constructed s₀)
    (hC : Along Step (fun s a => a.NoWrap ∧ KeepsClients s a) s₀ as) :
    (∀ s, Run Step s₀ as s → BlocksSafe s) ∧ Along Step Spares s₀ as := by
  have hinit : ∃ cs fl, Holds s₀ cs fl ∧ ∀ b ∈ s₀.live, b.1 + b.2 ≤ s₀.heap.endAddr := by
    refine ⟨_, _, h₀.holds, fun b hb => ?_⟩
    rw [h₀.1] at hb
    cases hb
  have hstep : ∀ s a s', (∃ cs fl, Holds s cs fl ∧ ∀ b ∈ s.live, b.1 + b.2 ≤ s.heap.endAddr) →
      (a.NoWrap ∧ KeepsClients s a) → Step s a s' →
      ∃ cs fl, Holds s' cs fl ∧ ∀ b ∈ s'.live, b.1 + b.2 ≤ s'.heap.endAddr :=
    fun s a s' ⟨cs, fl, hH, hin⟩ ⟨h1, h2, _, h3⟩ hs => hH.step_inside hin h1 h2 h3 hs
  constructor
  · intro s hrun
    obtain ⟨cs, fl, hH, hin⟩ := hrun.invariant hstep hC hinit
    exact hH.blocksSafe hin
  · exact Along.of_invariant hstep
      (fun s a ⟨cs, fl, hH, hin⟩ ⟨hw, _, hsp, hk⟩ => hH.spares hin hw hsp hk) hinit hC

instance (f : Chunk) (n e : ℕ) : Decidable (Overhangs f n e) :=
  inferInstanceAs (Decidable (_ ∧ _))

instance (s : Clients) (a : HeapAct) : Decidable (KeepsBlocks s a) :=
  match a with
  | .alloc _ _ => by unfold KeepsBlocks; infer_instance
  | .palignedAlloc _ _ => by unfold KeepsBlocks; infer_instance
  | .free _ _ => by unfold KeepsBlocks; infer_instance
  | .put _ _ => inferInstanceAs (Decidable True)

instance (s : Clients) (a : HeapAct) : Decidable (KeepsClients s a) :=
  inferInstanceAs (Decidable (_ ∧ _ ∧ _))

theorem run_keeps_blocks_sample : ∃ s, Run Step startState sampleRun s ∧ BlocksSafe s ∧
    Along Step Spares startState sampleRun := by
  obtain ⟨s, hrun, _⟩ : ∃ s, Run Step startState sampleRun s ∧ true = true :=
    run_of_any (f := next) (fun _ _ _ => Iff.rfl) (t := fun _ => true) (by decide +kernel)
  have hsafe : (∀ s, Run Step startState sampleRun s → BlocksSafe s) ∧
      Along Step Spares startState sampleRun := run_keeps_blocks startState_constructed
    (Along.mono (fun s a h => of_decide_eq_true h) (along_of_check (f := next)
      (fun _ _ _ => Iff.rfl) (p := fun s a => decide (a.NoWrap ∧ KeepsClients s a))
      (by decide +kernel)))
  exact ⟨s, hrun, hsafe.1 s hrun, hsafe.2⟩

/-- Allocate up to a page boundary, then something behind it, and release that. -/
def cutRun : List HeapAct :=
  [.alloc bareEnv 1052668, .alloc bareEnv 100, .free bareEnv 17829896]

/-- The heap is cut four bytes short of the end of a live block. -/
theorem cutRun_unmaps_block : Constructed startState ∧ (∀ a ∈ cutRun, a.NoWrap) ∧
    ∃ s, Run Step startState cutRun s ∧ (16777224, 1052668) ∈ s.live ∧
      s.heap.endAddr = 17829888 ∧ ¬ BlocksSafe s := by
  obtain ⟨s, hrun, hs⟩ : ∃ s, Run Step startState cutRun s ∧
      decide ((16777224, 1052668) ∈ s.live ∧ s.heap.endAddr = 17829888) = true :=
    run_of_any (f := next) (fun _ _ _ => Iff.rfl) (by decide +kernel)
  obtain ⟨hmem, hend⟩ := of_decide_eq_true hs
  refine ⟨startState_constructed, by decide, s, hrun, hmem, hend, fun hsafe => ?_⟩
  have := (hsafe.inside _ hmem).2
  rw [hend] at this
  exact absurd this (by decide)

/-! ## Confinement -/

/-- The access is to the heap or to the list head, a growth does not wrap, and a retry is the
first. -/
def HeapEvent.Within (hd : ℕ) : HeapEvent → Prop
  | .read a e => InHeap hd e a
  | .write a e => InHeap hd e a
  | .unmap _ _ => True
  | .remap _ _ => False
  | .retry depth => depth = 0

/-- Everything the operation does stays within the heap. -/
def Confined (s : Clients) (a : HeapAct) : Prop := ∀ t ∈ trace s a, t.Within s.heap.head

/-- **What keeps heap code inside.** No growth wraps, and the last chunk is not taken whole with a
mapped page behind it. -/
def StaysInside (s : Clients) (a : HeapAct) : Prop :=
  KeepsSpace s a ∧ match a with
  | .alloc env n => ∀ f e, served env s.heap (request2size n) = some (f, e) →
      ¬ request2size n + 16 ≤ f.size → f.addr + f.size = e → env.ext (e / 4096) = false
  | .palignedAlloc env n => ∀ f e, served env s.heap (request2size n + 4112) = some (f, e) →
      ¬ request2size n + 4112 + 16 ≤ f.size → f.addr + f.size = e → env.ext (e / 4096) = false
  | _ => True

theorem within_of_allowed {hd : ℕ} {t : HeapEvent}
    (ht : Allowed hd (fun _ => True) (fun _ _ => True) (fun _ => False) False t) : t.Within hd := by
  cases t with
  | read a e => exact ht.resolve_right fun h => h.1
  | write a e => exact (ht.resolve_right fun h => h.1).1
  | unmap a size => trivial
  | remap a size => exact ht
  | retry depth => exact ht

theorem Holds.confined (hH : Holds s cs fl) {a : HeapAct} (hw : a.NoWrap) (hk : StaysInside s a) :
    Confined s a := by
  intro t ht
  refine within_of_allowed ?_
  cases a with
  | alloc env n =>
    refine (hH.wp_alloc hw (fun _ _ => trivial) hk.1 ?_ : Wp _ _ (Heap.alloc env n) _ _).1 t ht
    rintro e ⟨f, hf, hfit, htop, hext⟩
    rw [hk.2 f e hf hfit htop] at hext
    cases hext
  | palignedAlloc env n =>
    refine (hH.wp_palignedAlloc hw (fun _ _ => trivial) hk.1 ?_ fun _ _ _ _ _ _ _ => trivial :
      Wp _ _ (Heap.palignedAlloc env n) _ _).1 t ht
    rintro e ⟨f, hf, hfit, htop, hext⟩
    rw [hk.2 f e hf hfit htop] at hext
    cases hext
  | free env p =>
    dsimp only [trace] at ht
    split_ifs at ht with hlive
    · obtain ⟨c, xs, L, R, ys, rfl, _, hAr⟩ := hH.around hlive
      exact (wp_freeUnlocked (Q := fun _ _ => True) hAr (fun _ _ => trivial)
        (fun _ _ _ => trivial) (fun _ _ => trivial) (fun _ _ => trivial)
        fun _ _ _ _ _ _ _ _ => trivial : Wp _ True (Heap.freeUnlocked env (c.addr + 8)) _ _).1 t ht
    · cases ht
  | put a v => cases ht

/-- **Limits and metadata.** Along every run of tag-keeping steps that stay inside, the heap ends on
a page boundary in its window, and every access is to the heap or its list head; the allocator calls
itself at most once. -/
theorem run_stays_inside {s₀ : Clients} {as : List HeapAct} (h₀ : Constructed s₀)
    (hC : Along Step (fun s a => a.NoWrap ∧ KeepsTags s a ∧ StaysInside s a) s₀ as) :
    (∀ s, Run Step s₀ as s → HeapEndOk s.heap.endAddr) ∧ Along Step Confined s₀ as := by
  have hstep : ∀ s a s', (∃ cs fl, Holds s cs fl) → (a.NoWrap ∧ KeepsTags s a ∧ StaysInside s a) →
      Step s a s' → ∃ cs fl, Holds s' cs fl :=
    fun s a s' ⟨cs, fl, hH⟩ ⟨h1, h2, _⟩ hs => hH.step h1 h2 hs
  constructor
  · intro s hrun
    obtain ⟨cs, fl, hH⟩ := hrun.invariant hstep hC ⟨_, _, h₀.holds⟩
    exact hH.wf.listed.sane.endOk
  · exact Along.of_invariant hstep (fun s a ⟨cs, fl, hH⟩ hc => hH.confined hc.1 hc.2.2)
      ⟨_, _, h₀.holds⟩ hC

instance (s : Clients) (a : HeapAct) : Decidable (StaysInside s a) :=
  match a with
  | .alloc _ _ => by unfold StaysInside; infer_instance
  | .palignedAlloc _ _ => by unfold StaysInside; infer_instance
  | .free _ _ => by unfold StaysInside; infer_instance
  | .put _ _ => by unfold StaysInside; infer_instance

theorem run_stays_inside_sample : ∃ s, Run Step startState sampleRun s ∧
    HeapEndOk s.heap.endAddr ∧ Along Step Confined startState sampleRun := by
  obtain ⟨s, hrun, _⟩ : ∃ s, Run Step startState sampleRun s ∧ true = true :=
    run_of_any (f := next) (fun _ _ _ => Iff.rfl) (t := fun _ => true) (by decide +kernel)
  have hsafe : (∀ s, Run Step startState sampleRun s → HeapEndOk s.heap.endAddr) ∧
      Along Step Confined startState sampleRun := run_stays_inside startState_constructed
    (Along.mono (fun s a h => of_decide_eq_true h) (along_of_check (f := next)
      (fun _ _ _ => Iff.rfl) (p := fun s a => decide (a.NoWrap ∧ KeepsTags s a ∧ StaysInside s a))
      (by decide +kernel)))
  exact ⟨s, hrun, hsafe.1 s hrun, hsafe.2⟩

/-- After `footerRun` the client of the small block clears it. -/
def clearedRun : List HeapAct := footerRun ++ (List.range 16).map fun i => .put (16777224 + i) 0

/-- The release that follows takes the client's zeros for links. -/
theorem clearedRun_leaves_heap : Constructed startState ∧ (∀ a ∈ clearedRun, a.NoWrap) ∧
    ∃ s s', Run Step startState clearedRun s ∧ Step s (.free bareEnv 16777488) s' ∧
      .write 0 17825792 ∈ trace s (.free bareEnv 16777488) ∧
      ¬ Confined s (.free bareEnv 16777488) := by
  obtain ⟨s, hrun, hs⟩ : ∃ s, Run Step startState clearedRun s ∧
      decide (s.heap.head = 4096 ∧ .write 0 17825792 ∈ trace s (.free bareEnv 16777488) ∧
        (next s (.free bareEnv 16777488)).isSome = true) = true :=
    run_of_any (f := next) (fun _ _ _ => Iff.rfl) (by decide +kernel)
  obtain ⟨hhead, hwrite, hsome⟩ := of_decide_eq_true hs
  obtain ⟨s', hs'⟩ := Option.isSome_iff_exists.1 hsome
  refine ⟨startState_constructed, by decide, s, s', hrun, hs', hwrite, fun hc => ?_⟩
  have hin := hc _ hwrite
  rw [hhead] at hin
  rcases hin with h1 | h1 | h1
  · exact absurd h1.1 (by decide)
  · exact absurd h1 (by decide)
  · exact absurd h1 (by decide)

end

end Ospp
