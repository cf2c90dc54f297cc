import Ospp.Mm.HeapAligned

/-!
# Best fit

The free list is in the order of the sizes, so the first chunk that fits is the smallest one that
does. `insertChunk` stops its search at the first chunk that is not smaller and links the new one
in front of it, `removeChunk` leaves a sublist. `alloc`, `palignedAlloc` and `free` write a size
only into the header of a chunk that is not in the list at that time.
-/

namespace Ospp

open Cmd

namespace Heap

variable {env : HeapEnv} {h : Heap} {cs : List Chunk} {fl : List ℕ} {c n s : ℕ}

/-- The chunk joins the list at its place, without a change to any other word than the links, and
`removeChunk` gives the list back as it was. -/
def EntersInOrder (env : HeapEnv) (h : Heap) (fl : List ℕ) (c : ℕ) : Prop :=
  ∃ h' fl', (insertChunk env c h).result = .ok ((), h') ∧ Listed h' fl' ∧ fl'.Perm (c :: fl) ∧
    BySize h'.mem fl' ∧ SameBut h h' (c :: fl) ∧
    ∃ h'', (removeChunk env c h').result = .ok ((), h'') ∧ Listed h'' fl ∧
      h''.endAddr = h.endAddr ∧ h''.head = h.head ∧
      ∀ b, b % 4 = 0 → b < 4294967296 → b ≠ c + 8 → b ≠ c + 12 →
        h''.mem.read32 b = h.mem.read32 b

/-- The search returns a smallest chunk of at least this size, or null where there is none. -/
def FindsBestFit (env : HeapEnv) (h : Heap) (fl : List ℕ) (s : ℕ) : Prop :=
  ∃ r, (findSmallestChunk env s h).result = .ok (r, h) ∧
    (r = 0 ↔ ∀ b ∈ fl, hsize h.mem b < s) ∧
    (r ≠ 0 → r ∈ fl ∧ s ≤ hsize h.mem r ∧
      ∀ b ∈ fl, s ≤ hsize h.mem b → hsize h.mem r ≤ hsize h.mem b)

/-- The free list is linked as it should be, and in the order of the sizes. -/
def Ordered (h : Heap) : Prop := ∃ fl, Listed h fl ∧ BySize h.mem fl

/-- Where an operation of the heap returns, the free list is in order. -/
structure KeepsOrder (env : HeapEnv) (h : Heap) (cs : List Chunk) : Prop where
  alloc : ∀ n ≤ 4294967284, ∀ p h', (alloc env n h).result = .ok (p, h') → Ordered h'
  palignedAlloc : ∀ n ≤ 4294963172, ∀ p h',
    (palignedAlloc env n h).result = .ok (p, h') → Ordered h'
  free : ∀ p ∈ cs, p.used = true → ∀ h',
    (free env (p.addr + 8) h).result = .ok ((), h') → Ordered h'

/-! ## The list -/

/-- A memory with the same ring, and the same words elsewhere but for those of `c`. -/
theorem SameBut.words_eq {h'' : Heap} (hl : Listed h fl) (hl'' : Listed h'' fl)
    (hhead : h''.head = h.head) (hsame : SameBut h h'' (c :: fl)) {b : ℕ} (hb4 : b % 4 = 0)
    (hb : b < 4294967296) (h8 : b ≠ c + 8) (h12 : b ≠ c + 12) :
    h''.mem.read32 b = h.mem.read32 b := by
  have hring'' := hl''.ring
  rw [hhead] at hring''
  by_cases hw : ListWord h (c :: fl) b
  · rcases hw with rfl | rfl | ⟨x, hx, hxb⟩
    · exact (hl.ring.words_eq hring'' (List.mem_cons_self ..)).1
    · exact (hl.ring.words_eq hring'' (List.mem_cons_self ..)).2
    · rcases List.mem_cons.1 hx with rfl | hx
      · exact (hxb.elim h8 h12).elim
      · have hu : x + 8 ∈ h.head :: fl.map (· + 8) :=
          List.mem_cons_of_mem _ (List.mem_map.2 ⟨x, hx, rfl⟩)
        rcases hxb with rfl | rfl
        · exact (hl.ring.words_eq hring'' hu).1
        · exact (hl.ring.words_eq hring'' hu).2
  · exact hsame b hb4 hb hw

/-- **Insertion.** -/
theorem Listed.entersInOrder (hl : Listed h fl) (hb : BySize h.mem fl) (hf : Fits h fl c) :
    EntersInOrder env h fl c := by
  have hins : Wp (Allowed h.head (fun _ => True) (fun _ _ => True) (fun _ => True) True) False
      (insertChunk env c) (fun _ h' => Listed h' (insertBySize h.mem c fl) ∧
        h'.endAddr = h.endAddr ∧ h'.head = h.head ∧ SameBut h h' (c :: fl) ∧
        BySize h'.mem (insertBySize h.mem c fl)) h := by
    refine wp_insertChunk hl hf (fun _ _ => ⟨trivial, trivial⟩) fun h' hl' hend hhead hsame => ?_
    refine ⟨hl', hend, hhead, hsame, (hb.insert c).congr (hl'.hsize_congr fun z h1 h2 h3 h4 => ?_)⟩
    exact hsame z h2 h3 (not_listWord hl.sane h1 fun x hx =>
      h4 x ((insertBySize_perm _ _ _).mem_iff.2 hx))
  obtain ⟨⟨⟩, h', hres, hl', hend', hhead', hsame', hb'⟩ := hins.total
  -- taking the chunk out again joins what is before it and what is behind
  have hsplit : (fl.takeWhile fun b => decide (hsize h.mem b < hsize h.mem c)) ++
      fitFrom h.mem (hsize h.mem c) fl = fl := List.takeWhile_append_dropWhile
  have hrem : Wp (Allowed h'.head (fun _ => True) (fun _ _ => True) (fun _ => True) True) False
      (removeChunk env c) (fun _ h'' => Listed h'' fl ∧ h''.endAddr = h'.endAddr ∧
        h''.head = h'.head ∧ SameBut h' h'' fl) h' := by
    refine wp_removeChunk hl' (fun _ _ => ⟨trivial, trivial⟩) fun h'' hl'' hend hhead hsame => ?_
    rw [hsplit] at hl'' hsame
    exact ⟨hl'', hend, hhead, hsame⟩
  obtain ⟨⟨⟩, h'', hres'', hl'', hend'', hhead'', hsame''⟩ := hrem.total
  have hhead := hhead''.trans hhead'
  have hmore : SameBut h' h'' (c :: fl) := by
    refine fun b h1 h2 h3 => hsame'' b h1 h2 fun hw => h3 ?_
    exact hw.imp id (Or.imp id fun ⟨x, hx, e⟩ => ⟨x, List.mem_cons_of_mem _ hx, e⟩)
  refine ⟨h', _, hres, hl', insertBySize_perm _ _ _, hb', hsame', h'', hres'', hl'',
    hend''.trans hend', hhead, fun b => ?_⟩
  exact SameBut.words_eq hl hl'' hhead (hsame'.trans hmore hhead')

/-- The first chunk that fits is a smallest one. -/
theorem BySize.fitFrom_least {m : Mem} {a : ℕ} {l : List ℕ} (hb : BySize m fl)
    (hfit : fitFrom m s fl = a :: l) :
    a ∈ fl ∧ s ≤ hsize m a ∧ ∀ b ∈ fl, s ≤ hsize m b → hsize m a ≤ hsize m b := by
  have hsplit : (fl.takeWhile fun b => decide (hsize m b < s)) ++ (a :: l) = fl := by
    rw [← hfit]
    exact List.takeWhile_append_dropWhile
  have hsorted : BySize m (a :: l) := by
    rw [← hfit]
    exact hb.sublist (List.dropWhile_sublist _)
  refine ⟨?_, ?_, fun b hbm hsb => ?_⟩
  · rw [← hsplit]
    simp
  · have hnot := List.head?_dropWhile_not (fun b => decide (hsize m b < s)) fl
    rw [show fl.dropWhile _ = a :: l from hfit, List.head?_cons] at hnot
    simpa using hnot
  · rw [← hsplit] at hbm
    rcases List.mem_append.1 hbm with hbm | hbm
    · have hlt := List.mem_takeWhile_imp hbm
      rw [decide_eq_true_eq] at hlt
      omega
    · rcases List.mem_cons.1 hbm with rfl | hbm
      · exact le_refl _
      · exact List.rel_of_pairwise_cons hsorted hbm

/-- **Search.** -/
theorem Listed.findsBestFit (hl : Listed h fl) (hb : BySize h.mem fl) :
    FindsBestFit env h fl s := by
  have hfind : Wp (Allowed h.head (fun _ => True) (fun _ _ => True) (fun _ => True) True) False
      (findSmallestChunk env s) (fun r h' => r = (fitFrom h.mem s fl).headD 0 ∧ h' = h) h :=
    wp_findSmallestChunk hl ⟨rfl, rfl⟩
  obtain ⟨r, h', hres, rfl, rfl⟩ := hfind.total
  refine ⟨_, hres, ?_⟩
  cases hfit : fitFrom h'.mem s fl with
  | nil =>
    have hsmall := List.dropWhile_eq_nil_iff.1 hfit
    simp only [decide_eq_true_eq] at hsmall
    exact ⟨⟨fun _ => hsmall, fun _ => rfl⟩, fun hr => absurd rfl hr⟩
  | cons a l =>
    obtain ⟨ha, hsa, hleast⟩ := hb.fitFrom_least hfit
    have hra := hl.range a ha
    rw [List.headD_cons]
    refine ⟨⟨fun h0 => by omega, fun hsmall => ?_⟩, fun _ => ⟨ha, hsa, hleast⟩⟩
    have := hsmall a ha
    omega

/-! ## The operations -/

theorem Arena.ordered {Zp Zf : ℕ → Prop} (hA : Arena h cs fl Zp Zf) (hb : BySize h.mem fl) :
    Ordered h := ⟨fl, hA.listed, hb⟩

theorem wp_alloc_ordered (hA : Wf h cs fl) (hb : BySize h.mem fl) (hn : n ≤ 4294967284) :
    Wp (Allowed h.head (fun _ => True) (fun _ _ => True) (fun _ => True) True) True (alloc env n)
      (fun _ h' => Ordered h') h := by
  obtain ⟨h16, h8, _, hlt, _⟩ := request2size_bounds hn
  refine wp_alloc hA rfl h16 h8 hlt (fun _ _ => trivial) (fun _ _ _ _ _ _ _ => trivial)
    (fun _ _ => trivial) (fun _ _ => trivial)
    (fun _ _ _ _ _ _ _ => ⟨fun _ => trivial, fun _ => trivial⟩) ?_
  intro e xs f ys h' fl' _ _ hA' _ _ _ hord
  exact hA'.ordered (hord hb)

theorem wp_palignedAlloc_ordered (hA : Wf h cs fl) (hb : BySize h.mem fl) (hn : n ≤ 4294963172) :
    Wp (Allowed h.head (fun _ => True) (fun _ _ => True) (fun _ => True) True) True
      (palignedAlloc env n) (fun _ h' => Ordered h') h := by
  refine wp_palignedAlloc hA hn rfl (fun _ _ => trivial) (fun _ _ _ _ _ _ _ => trivial)
    (fun _ _ => trivial) (fun _ _ => trivial)
    (fun _ _ _ _ _ _ _ => ⟨fun _ => trivial, fun _ => trivial⟩)
    (fun _ _ _ _ _ _ _ => trivial) ?_
  intro e xs f ys h' fl' _ _ hA' _ _ _ hord
  exact hA'.ordered (hord hb)

theorem wp_free_ordered (hA : Wf h cs fl) (hb : BySize h.mem fl) {p : Chunk} (hp : p ∈ cs)
    (hused : p.used = true) :
    Wp (Allowed h.head (fun _ => True) (fun _ _ => True) (fun _ => True) True) True
      (free env (p.addr + 8)) (fun _ h' => Ordered h') h := by
  obtain ⟨xs, L, R, ys, rfl, hAr⟩ := hA.exists_around hp hused id id id
  refine wp_freeUnlocked hAr (fun _ _ => trivial) (fun _ _ _ => trivial) (fun _ _ => trivial)
    (fun _ _ => trivial) ?_
  intro h' fl' _ hA' _ _ _ hord
  exact hA'.ordered (hord hb)

/-- **Best fit by a sorted free list.** On a list in the order of the sizes `insertChunk` puts a
chunk at its place and `removeChunk` undoes it, `findSmallestChunk` finds a smallest chunk that is
large enough, and the operations of a well-formed heap keep the order. -/
theorem freeList_bySize (env : HeapEnv) {h : Heap} {fl : List ℕ} (hl : Listed h fl)
    (hb : BySize h.mem fl) : (∀ c, Fits h fl c → EntersInOrder env h fl c) ∧
      (∀ s, FindsBestFit env h fl s) ∧ ∀ cs, Wf h cs fl → KeepsOrder env h cs :=
  ⟨fun _ hf => hl.entersInOrder hb hf, fun _ => hl.findsBestFit hb, fun _ hA =>
    ⟨fun _ hn _ _ hr => (wp_alloc_ordered hA hb hn).returns hr,
      fun _ hn _ _ hr => (wp_palignedAlloc_ordered hA hb hn).returns hr,
      fun _ hp hu _ hr => (wp_free_ordered hA hb hp hu).returns hr⟩⟩

/-- A heap with a block in use between two free chunks. -/
def gapHeap : Heap where
  endAddr := 17825792
  head := 4096
  mem := ((((((((((Mem.write32 (fun _ => 0) 4096 16777224).write32 4100 16777280).write32 16777220
    (32 + 1)).write32 16777224 16777280).write32 16777228 4096).write32 16777248 32).write32
    16777252 (24 + 2)).write32 16777276 (1048520 + 1)).write32 16777280 4096).write32 16777284
    16777224)

def gapChunks : List Chunk :=
  [⟨16777216, 32, false⟩, ⟨16777248, 24, true⟩, ⟨16777272, 1048520, false⟩]

theorem freeList_bySize_gapHeap : EntersInOrder bareEnv gapHeap [16777216, 16777272] 16777248 ∧
    FindsBestFit bareEnv gapHeap [16777216, 16777272] 40 ∧
    KeepsOrder bareEnv gapHeap gapChunks := by
  have hA : Wf gapHeap gapChunks [16777216, 16777272] := by decide +kernel
  have hb : BySize gapHeap.mem [16777216, 16777272] := by
    unfold BySize
    decide +kernel
  obtain ⟨h1, h2, h3⟩ := freeList_bySize bareEnv hA.listed hb
  exact ⟨h1 16777248 ⟨by decide, by decide, by decide, by decide⟩, h2 40, h3 gapChunks hA⟩

end Heap

end Ospp
