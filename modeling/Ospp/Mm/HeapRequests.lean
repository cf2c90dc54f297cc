import Ospp.Mm.HeapAligned

/-!
# Requests

What a caller gets: blocks of the requested size, and aligned blocks. The chunk that a request will
be served from can be told from the heap before it, with the searches of the code itself
(`served`); the conditions below are stated with it.
-/

namespace Ospp

open Cmd

namespace Heap

/-- The result of `findSmallestChunk`. -/
def found (env : HeapEnv) (h : Heap) (nb : ℕ) : ℕ :=
  match (findSmallestChunk env nb h).result with
  | .ok (a, _) => a
  | .error _ => 0

/-- The highest link of the free list, or `0`. -/
def topLink (env : HeapEnv) (h : Heap) : ℕ :=
  match ((load env h.head >>= fun first => highestLink env listFuel first 0) h).result with
  | .ok (a, _) => a
  | .error _ => 0

/-- Where the top chunk of the grown heap starts. -/
def growsAt (env : HeapEnv) (h : Heap) : ℕ :=
  if topLink env h ≠ 0 ∧ topLink env h - 8 + hsize h.mem (topLink env h - 8) = h.endAddr then
    topLink env h - 8
  else h.endAddr

/-- The chunk that a request for `nb` bytes is served from, and the end of the heap then. -/
def served (env : HeapEnv) (h : Heap) (nb : ℕ) : Option (Chunk × ℕ) :=
  if found env h nb ≠ 0 then
    some (⟨found env h nb, hsize h.mem (found env h nb), false⟩, h.endAddr)
  else if Grows env h nb then
    some (⟨growsAt env h, grownEnd h.endAddr nb - growsAt env h, false⟩, grownEnd h.endAddr nb)
  else none

/-- No chunk fits a request for `nb` bytes, and the growth for it wraps. -/
def Remaps (env : HeapEnv) (h : Heap) (nb : ℕ) : Prop := found env h nb = 0 ∧ Wraps env h nb

instance (env : HeapEnv) (h : Heap) (nb : ℕ) : Decidable (Remaps env h nb) :=
  inferInstanceAs (Decidable (_ ∧ _))

section

variable {env : HeapEnv} {h h' : Heap} {xs ys cs : List Chunk} {fl : List ℕ} {f : Chunk}
  {nb e n : ℕ}

theorem found_eq (hl : Listed h fl) : found env h nb = (fitFrom h.mem nb fl).headD 0 := by
  have hw : Wp (Allowed h.head (fun _ => True) (fun _ _ => True) (fun _ => True) True) False
      (findSmallestChunk env nb) (fun a _ => a = (fitFrom h.mem nb fl).headD 0) h :=
    wp_findSmallestChunk hl rfl
  obtain ⟨a, h', hr, ha⟩ := hw.total
  unfold found
  rw [hr]
  exact ha

theorem found_eq_zero (hl : Listed h fl) : found env h nb = 0 ↔ fitFrom h.mem nb fl = [] := by
  rw [found_eq hl]
  cases hfit : fitFrom h.mem nb fl with
  | nil => simp
  | cons a l =>
    have ha : a ∈ fl := (List.dropWhile_suffix _).subset (by
      rw [show fl.dropWhile _ = a :: l from hfit]; exact List.mem_cons_self ..)
    have := hl.range a ha
    rw [List.headD_cons]
    exact ⟨fun h0 => by omega, fun h0 => by cases h0⟩

theorem topLink_eq (hl : Listed h fl) : topLink env h = highest 0 fl := by
  have hw : Wp (Allowed h.head (fun _ => True) (fun _ _ => True) (fun _ => True) True) False
      (load env h.head >>= fun first => highestLink env listFuel first 0)
      (fun a _ => a = highest 0 fl) h :=
    .bind (wp_loadHead hl (wp_highestLink [] hl hl.length_lt rfl))
  obtain ⟨a, h', hr, ha⟩ := hw.total
  unfold topLink
  rw [hr]
  exact ha

/-- The top chunk grows out of the last chunk if that is free. -/
theorem growsAt_eq (hA : Wf h cs fl) {e' : ℕ} (hE : Extends cs h.endAddr e' xs f) :
    growsAt env h = f.addr := by
  obtain ⟨_, hhigh, hsome⟩ := highest_spec fl 0
  unfold growsAt
  rw [topLink_eq hA.listed]
  rcases hE.split with ⟨_, haddr, hlast⟩ | ⟨t, hcs, hfree, haddr⟩
  · rw [if_neg, haddr]
    rintro ⟨hne, hend⟩
    obtain ⟨a, ha, hta⟩ := hsome.resolve_left hne
    obtain ⟨c, hc, rfl, hu⟩ := (hA.free a).1 ha
    rw [hta, Nat.add_sub_cancel, (hA.tagged.shown c hc).1] at hend
    rw [hlast c hc hend] at hu
    cases hu
  · have ht : t ∈ cs := by rw [hcs]; simp
    have htb := hA.mem_bounds ht
    have htend : t.addr + t.size = h.endAddr := by
      have h1 := hA.tiles
      rw [hcs] at h1
      exact h1.split.2.2.2
    have htop := hhigh t.addr ((hA.free _).2 ⟨t, ht, rfl, hfree⟩)
    obtain ⟨a, ha, hta⟩ := hsome.resolve_left (by omega)
    obtain ⟨c, hc, rfl, _⟩ := (hA.free a).1 ha
    have hcb := hA.mem_bounds hc
    -- no chunk starts behind the last one
    have hct : c = t := by
      rcases hA.tiles.sep hc ht with h1 | h1 | h1
      · exact h1
      · omega
      · omega
    rw [hta, Nat.add_sub_cancel, (hA.tagged.shown c hc).1, hct, if_pos ⟨by omega, htend⟩, haddr]

/-- **The chunk a request is served from** is known beforehand. -/
theorem Serves.served (hA : Wf h cs fl) (hs : Serves env h cs fl nb e xs f ys) :
    served env h nb = some (f, e) := by
  unfold Heap.served
  rw [found_eq hA.listed]
  cases hs with
  | hole hcs hfree hle hfit =>
    have hf : f ∈ cs := by rw [hcs]; simp
    have hfb := hA.mem_bounds hf
    rw [List.headD_eq_head?_getD, hfit, Option.getD_some, if_pos (by omega),
      (hA.tagged.shown f hf).1, ← hfree]
  | grow hnone hg hE =>
    rw [hnone, List.headD_nil, if_neg (not_not_intro rfl), if_pos hg, growsAt_eq hA hE, ← hE.ends,
      Nat.add_sub_cancel_left, ← hE.free]

theorem served_eq_none (hA : Wf h cs fl) :
    Heap.served env h nb = none ↔ fitFrom h.mem nb fl = [] ∧ ¬ Grows env h nb := by
  unfold Heap.served
  rw [← (found_eq_zero hA.listed : found env h nb = 0 ↔ _)]
  by_cases h0 : found env h nb = 0
  · rw [if_neg (not_not_intro h0)]
    split_ifs with hg <;> simp [h0, hg]
  · rw [if_pos h0]
    simp [h0]

/-- The aligned chunk, and the lead if there is one. -/
theorem alignedLayout_parts (hle : nb + 4112 ≤ f.size) (hs8 : f.size % 8 = 0) (hn8 : nb % 8 = 0) :
    (∃ b ∈ (alignedLayout f nb e).1, b.used = true ∧ b.addr = alignedAddr f.addr ∧ nb ≤ b.size ∧
      b.size ≤ nb + 16) ∧ leadOf f.addr ⊆ (alignedLayout f nb e).1 := by
  have ht := taken_bounds hle
  unfold alignedLayout
  split_ifs with hlong
  · refine ⟨⟨⟨alignedAddr f.addr, f.addr + taken f (nb + 4112) - alignedAddr f.addr, true⟩,
      by simp, rfl, rfl, by dsimp only; omega, by dsimp only; omega⟩, ?_⟩
    intro c hc
    simp [hc]
  · refine ⟨⟨⟨alignedAddr f.addr, nb, true⟩, by simp, rfl, rfl, le_refl nb, by dsimp only; omega⟩,
      ?_⟩
    intro c hc
    simp [hc]

/-- The heap as it is constructed, with the list head at `0x1000`. -/
def freshHeap : Heap where
  endAddr := 17825792
  head := 4096
  mem := ((((Mem.write32 (fun _ => 0) 4096 16777224).write32 4100 16777224).write32 16777220
    (1048576 + 1)).write32 16777224 4096).write32 16777228 4096

def freshChunks : List Chunk := [⟨16777216, 1048576, false⟩]

theorem freshHeap_wf : Wf freshHeap freshChunks [16777216] := by decide +kernel

-- with frames for all of them, a request of this size maps the pages up to 4 GiB and one more
example : Remaps { bareEnv with frames := fun _ _ => true } freshHeap (request2size 4277141504) := by
  decide +kernel

/-- What `palignedAlloc` is to do: return a page-aligned block with room for `n` bytes, cut out of
the chunk that serves the request, with the lead and the tail as free chunks. -/
def PlacesAligned (env : HeapEnv) (h : Heap) (cs : List Chunk) (fl : List ℕ) (n : ℕ) : Prop :=
  ∃ e xs f ys p h' fl', Serves env h cs fl (request2size n + 4112) e xs f ys ∧
    (palignedAlloc env n h).result = .ok (p, h') ∧ p % 4096 = 0 ∧
    Arena h' (xs ++ (alignedLayout f (request2size n) e).1 ++ ys) fl' Nowhere
      (alignedStale f (request2size n)) ∧
    (∃ b ∈ (alignedLayout f (request2size n) e).1, b.used = true ∧ b.addr + 8 = p ∧
      n + 4 ≤ b.size ∧ b.size ≤ request2size n + 16) ∧ p + n ≤ h'.endAddr ∧
    (p ≠ f.addr + 8 → f.addr + 24 ≤ p ∧
      ⟨f.addr, p - 8 - f.addr, false⟩ ∈ (alignedLayout f (request2size n) e).1 ∧
      hpin h'.mem (p - 8) = false ∧ h'.mem.read32 (p - 8) = p - 8 - f.addr) ∧
    ∀ c ∈ cs, c.used = true → c ∈ xs ∨ c ∈ ys

/-- The block ends where the heap ends, and the request needs the word behind it. -/
def Overhangs (f : Chunk) (n e : ℕ) : Prop :=
  alignedAddr f.addr ≠ f.addr + 4104 ∧ f.addr + f.size = e ∧
    trimEnd (alignedAddr f.addr + request2size n) = alignedAddr f.addr + request2size n ∧
    request2size n < n + 8

/-- The request is served from a chunk that is split, or does not end the heap, or has a mapped page
behind it; the word at the page boundary is even; and the block does not overhang. -/
def AlignsCleanly (env : HeapEnv) (h : Heap) (n : ℕ) : Prop :=
  ∃ f e, served env h (request2size n + 4112) = some (f, e) ∧
    (request2size n + 4128 ≤ f.size ∨ f.addr + f.size ≠ e ∨ env.ext (e / 4096) = true) ∧
    ¬ StalePin (grown env h e).mem f.addr ∧ ¬ Overhangs f n e

/-- Where the heap ends, against the end of the aligned block. -/
theorem alignedLayout_end (hs : (grown env h e).Sane) (hf8 : f.addr % 8 = 0)
    (hlo : 16777216 ≤ f.addr) (hle : request2size n + 4112 ≤ f.size) (hfe : f.addr + f.size ≤ e)
    (hn : n + 4 ≤ request2size n) :
    alignedAddr f.addr + 8 + n ≤ (alignedLayout f (request2size n) e).2 ↔ ¬ Overhangs f n e := by
  have hal := alignedAddr_bounds hf8
  unfold alignedLayout Overhangs
  generalize request2size n = nb at *
  split_ifs with hlong
  · dsimp only
    exact ⟨fun _ h => h.1 hlong, fun _ => by omega⟩
  · unfold trim
    dsimp only
    by_cases htop : f.addr + f.size = e
    · have htb := trimEnd_bounds (h := grown env h e) hs (b := alignedAddr f.addr + nb) (by omega)
        (by rw [grown_endAddr]; omega)
      rw [if_neg (not_not_intro (by omega))]
      split_ifs with hcut
      · dsimp only
        constructor
        · intro h1 h2
          omega
        · intro h1
          by_contra h2
          exact h1 ⟨hlong, htop, by omega, by omega⟩
      · dsimp only
        exact ⟨fun _ h => hcut (le_of_eq h.2.2.1), fun _ => by omega⟩
    · rw [if_pos (by omega)]
      exact ⟨fun _ h => htop h.2.1, fun _ => by dsimp only; omega⟩

/-- The heap that serves a request is sane. -/
theorem Serves.sane (hA : Wf h cs fl) (hs : Serves env h cs fl nb e xs f ys) (hnb : 0 < nb) :
    (grown env h e).Sane := by
  cases hs with
  | hole => exact ⟨hA.listed.sane.1, hA.listed.sane.2, hA.listed.sane.3, hA.listed.sane.4⟩
  | grow _ hg _ => exact hA.listed.sane.grown hnb hg

/-- **Aligned allocation**: the request is served and the word at the page boundary, left behind by
an earlier owner of the memory, does not get in the way. -/
theorem palignedAlloc_places_iff (hA : Wf h cs fl) (hn : n ≤ 4294963172) :
    PlacesAligned env h cs fl n ↔ AlignsCleanly env h n := by
  obtain ⟨h16, h8, h4, hlt, _⟩ := request2size_bounds (show n ≤ 4294967284 by omega)
  have hU : ∀ e xs f ys, Serves env h cs fl (request2size n + 4112) e xs f ys →
      alignedAddr f.addr ≠ f.addr + 4104 → f.addr + f.size = e → True :=
    fun _ _ _ _ _ _ _ => trivial
  constructor
  · rintro ⟨e, xs, f, ys, p, h', fl', hs, hres, _, _, _, hfits, hlead, _⟩
    have hserved := hs.served hA
    obtain ⟨hlo, hf8, hle, _, hfe, _, _, _, _, _⟩ := hs.bounds hA (by omega)
    -- what a return says about the chunk that served the request
    have hw : Wp (Allowed h.head (fun _ => True) (fun _ _ => True) (fun _ => True) True) True
        (palignedAlloc env n)
        (fun p h' => (¬ request2size n + 4112 + 16 ≤ f.size → f.addr + f.size = e →
            env.ext (e / 4096) = true) ∧ h'.endAddr = (alignedLayout f (request2size n) e).2 ∧
          p = alignedAddr f.addr + 8 ∧ (StalePin (grown env h e).mem f.addr →
            h'.mem.read32 (alignedAddr f.addr + 4) % 2 = 1)) h := by
      refine wp_palignedAlloc hA hn rfl (fun _ _ => trivial) (fun _ _ _ _ _ _ _ => trivial)
        (fun _ _ => trivial) (fun _ _ => trivial)
        (fun _ _ _ _ _ _ _ => ⟨fun _ => trivial, fun _ => trivial⟩) hU ?_
      intro e₁ xs₁ f₁ ys₁ h₁ fl₁ hs₁ hext₁ _ hend₁ _ hpin₁ _
      have hsame := (hs₁.served hA).symm.trans hserved
      simp only [Option.some.injEq, Prod.mk.injEq] at hsame
      obtain ⟨rfl, rfl⟩ := hsame
      exact ⟨hext₁, hend₁, rfl, hpin₁⟩
    obtain ⟨hext, hend, rfl, hpin⟩ := hw.returns hres
    refine ⟨f, e, hserved, ?_, fun hstale => ?_, ?_⟩
    · by_cases hsplit : request2size n + 4112 + 16 ≤ f.size
      · exact Or.inl (by omega)
      · by_cases htop : f.addr + f.size = e
        · exact Or.inr (Or.inr (hext hsplit htop))
        · exact Or.inr (Or.inl htop)
    · have hclear := (hlead (by have := hstale.1; omega)).2.2.1
      rw [Nat.add_sub_cancel] at hclear
      exact of_decide_eq_false hclear (hpin hstale)
    · rw [hend] at hfits
      exact (alignedLayout_end (hs.sane hA (by omega)) hf8 hlo hle hfe h4).1 hfits
  · rintro ⟨f, e, hserved, hroom, hstale, hover⟩
    have hsame : ∀ e₁ xs₁ f₁ ys₁, Serves env h cs fl (request2size n + 4112) e₁ xs₁ f₁ ys₁ →
        f₁ = f ∧ e₁ = e := by
      intro e₁ xs₁ f₁ ys₁ hs₁
      have hsame := (hs₁.served hA).symm.trans hserved
      simpa only [Option.some.injEq, Prod.mk.injEq] using hsame
    have hw : Wp (Allowed h.head (fun _ => True) (fun _ _ => True) (fun _ => True) True) False
        (palignedAlloc env n) (fun p h' => ∃ xs ys fl',
          Serves env h cs fl (request2size n + 4112) e xs f ys ∧
          Arena h' (xs ++ (alignedLayout f (request2size n) e).1 ++ ys) fl' Nowhere
            (alignedStale f (request2size n)) ∧
          h'.endAddr = (alignedLayout f (request2size n) e).2 ∧ p = alignedAddr f.addr + 8) h := by
      refine wp_palignedAlloc hA hn rfl (fun _ _ => trivial) (fun _ _ _ _ _ _ _ => trivial)
        (fun hnone hg => ?_) (fun _ _ => trivial) (fun e₁ xs₁ f₁ ys₁ hs₁ hsplit htop => ?_) hU ?_
      · rw [(served_eq_none hA).2 ⟨hnone, hg⟩] at hserved
        cases hserved
      · obtain ⟨rfl, rfl⟩ := hsame _ _ _ _ hs₁
        refine ⟨fun hext => ?_, fun _ => trivial⟩
        rw [hext] at hroom
        rcases hroom with h1 | h1 | h1
        · omega
        · exact h1 htop
        · cases h1
      · intro e₁ xs₁ f₁ ys₁ h₁ fl₁ hs₁ _ hA₁ hend₁ _ _ _
        obtain ⟨rfl, rfl⟩ := hsame _ _ _ _ hs₁
        exact ⟨xs₁, ys₁, fl₁, hs₁, hA₁.weaken (fun _ _ h => hstale h.2) fun _ _ h => h, hend₁, rfl⟩
    obtain ⟨p, h', hres, xs, ys, fl', hs, hA', hend, rfl⟩ := hw.total
    obtain ⟨hlo, hf8, hle, hs8, hfe, _, _, _, _, _⟩ := hs.bounds hA (by omega)
    obtain ⟨hal, hpos⟩ := alignedAddr_bounds hf8
    obtain ⟨⟨b, hb, hbu, hba, hbn, hbs⟩, hleads⟩ := alignedLayout_parts (e := e) hle hs8 h8
    have hbmem : b ∈ xs ++ (alignedLayout f (request2size n) e).1 ++ ys := by simp [hb]
    refine ⟨e, xs, f, ys, _, h', fl', hs, hres, hal, hA',
      ⟨b, hb, hbu, by omega, by omega, hbs⟩, ?_, fun hne => ?_, fun c hc hu => ?_⟩
    · rw [hend]
      exact (alignedLayout_end (hs.sane hA (by omega)) hf8 hlo hle hfe h4).2 hover
    · have hmem : (⟨f.addr, alignedAddr f.addr - f.addr, false⟩ : Chunk) ∈
          (alignedLayout f (request2size n) e).1 := hleads (by
        unfold leadOf
        rw [if_neg (by omega)]
        exact List.mem_singleton_self _)
      have hmem' : (⟨f.addr, alignedAddr f.addr - f.addr, false⟩ : Chunk) ∈
          xs ++ (alignedLayout f (request2size n) e).1 ++ ys := by simp [hmem]
      have hnext : f.addr + (alignedAddr f.addr - f.addr) = b.addr := by omega
      rw [Nat.add_sub_cancel, ← hba]
      rw [← hba] at hmem hmem' hnext
      refine ⟨by omega, hmem, hA'.tagged.pin _ hmem' b hbmem hnext id,
        hA'.tagged.foot _ hmem' b hbmem hnext rfl fun hz => ?_⟩
      have := hz.2.2
      omega
    · exact (hs.used_mem hu).1 hc

theorem palignedAlloc_places_freshHeap : Wf freshHeap freshChunks [16777216] ∧
    PlacesAligned bareEnv freshHeap freshChunks [16777216] 128 := by
  refine ⟨freshHeap_wf, (palignedAlloc_places_iff freshHeap_wf (by norm_num)).2 ?_⟩
  refine ⟨⟨16777216, 1048576, false⟩, 17825792, by decide +kernel, Or.inl (by decide), ?_, ?_⟩
  · rintro ⟨_, hodd⟩
    exact absurd hodd (by decide +kernel)
  · rintro ⟨_, _, hend, _⟩
    exact absurd hend (by decide)

/-- The heap as it is constructed, with an odd word at the first page boundary. -/
def recycledHeap : Heap := freshHeap.write 16781308 1

/-- The block and the `PINUSE` bit of its chunk. -/
def placedPin (x : H ℕ) (h : Heap) : Option (ℕ × Bool) :=
  match (x h).result with
  | .ok (p, h') => some (p, hpin h'.mem (p - 8))
  | .error _ => none

/-- The header of the aligned block takes over the odd bit: it denies the free chunk before it. -/
theorem palignedAlloc_takes_stale_pin : Wf recycledHeap freshChunks [16777216] ∧
    placedPin (palignedAlloc bareEnv 128) recycledHeap = some (16781312, true) ∧
    ¬ PlacesAligned bareEnv recycledHeap freshChunks [16777216] 128 := by
  have hA : Wf recycledHeap freshChunks [16777216] := by decide +kernel
  have hpin : placedPin (palignedAlloc bareEnv 128) recycledHeap = some (16781312, true) := by
    decide +kernel
  refine ⟨hA, hpin, ?_⟩
  rintro ⟨e, xs, f, ys, p, h', fl', hs, hres, _, _, _, _, hlead, _⟩
  have hserved : served bareEnv recycledHeap (request2size 128 + 4112) =
      some (⟨16777216, 1048576, false⟩, 17825792) := by decide +kernel
  have hf := (hs.served hA).symm.trans hserved
  simp only [Option.some.injEq, Prod.mk.injEq] at hf
  unfold placedPin at hpin
  rw [hres] at hpin
  simp only [Option.some.injEq, Prod.mk.injEq] at hpin
  obtain ⟨rfl, hbit⟩ := hpin
  have hclear := (hlead (by rw [hf.1]; decide)).2.2.1
  rw [hbit] at hclear
  cases hclear

end

end Heap

end Ospp
