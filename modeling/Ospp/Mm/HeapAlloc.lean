import Ospp.Mm.HeapLayout

/-!
# Allocation

What `alloc_unlocked` does to the chunks. A hole that fits is taken whole or split; without one the
heap grows and the second try succeeds. Splitting writes no footer for the rest of the hole, so the
`prevFoot` of the chunk behind a split hole still holds the old size.
-/

namespace Ospp

open Cmd

namespace Heap

/-- What becomes of the hole `f`. -/
def carve (f : Chunk) (nb : ℕ) : List Chunk :=
  if nb + 16 ≤ f.size then [⟨f.addr, nb, true⟩, ⟨f.addr + nb, f.size - nb, false⟩]
  else [⟨f.addr, f.size, true⟩]

/-- The chunk whose `prevFoot` is left behind. -/
def staleFoot (f : Chunk) (nb : ℕ) : ℕ → Prop := fun z => nb + 16 ≤ f.size ∧ z = f.addr + f.size

section

variable {env : HeapEnv} {W : ℕ → Prop} {U : ℕ → ℕ → Prop} {S : ℕ → Prop} {M err : Prop}
  {h h' h₁ : Heap} {xs ys : List Chunk} {fl fl₁ fl' : List ℕ} {f : Chunk} {nb : ℕ}

/-- The chunks after a split. -/
theorem Arena.split (hA : Wf h (xs ++ [f] ++ ys) fl) (hfree : f.used = false) (hnb : 16 ≤ nb)
    (hnb8 : nb % 8 = 0) (hfit : nb + 16 ≤ f.size) (hl : Listed h' fl')
    (hend : h'.endAddr = h.endAddr)
    (hfl : ∀ z, z ∈ fl' ↔ z = f.addr + nb ∨ (z ∈ fl ∧ z ≠ f.addr))
    (hhead : h'.mem.read32 (f.addr + 4) = nb + 2 + h.mem.read32 (f.addr + 4) % 2)
    (hnew : h'.mem.read32 (f.addr + nb + 4) = f.size - nb + 1)
    (hkeep : ∀ c ∈ xs ++ ys, h'.mem.read32 (c.addr + 4) = h.mem.read32 (c.addr + 4) ∧
      h'.mem.read32 c.addr = h.mem.read32 c.addr)
    (hfoot : h'.mem.read32 f.addr = h.mem.read32 f.addr) :
    Arena h' (xs ++ carve f nb ++ ys) fl' Nowhere (staleFoot f nb) := by
  have hf : f ∈ xs ++ [f] ++ ys := by simp
  have hbf := hA.mem_bounds hf
  have htiles := hA.tiles
  rw [List.append_assoc, List.singleton_append] at htiles
  obtain ⟨hx, _, _, hy⟩ := htiles.split
  have hpinf : hpin h'.mem f.addr = hpin h.mem f.addr := hpin_congr (by omega)
  have hend' : f.addr + nb + (f.size - nb) = f.addr + f.size := by omega
  rw [show carve f nb = [⟨f.addr, nb, true⟩, ⟨f.addr + nb, f.size - nb, false⟩] from if_pos hfit]
  refine hA.replaceTwo (A := ⟨f.addr, nb, true⟩) (B := ⟨f.addr + nb, f.size - nb, false⟩) hl hx hnb
    hnb8 rfl (by dsimp only; omega) (by dsimp only; omega)
    (by dsimp only; rw [hend', hend]; exact hy) (fun c hc _ => hkeep c hc) (fun c hc hcb => ?_)
    ?_ ?_ (fun x hx' hxa => ?_) (fun ha => ?_) ⟨fun _ => ?_, fun hu => by cases hu⟩
    (fun z => ?_) (fun _ _ h => h) (fun _ _ h => h.elim)
  · dsimp only at hcb
    rw [hend'] at hcb
    obtain ⟨h1, _⟩ := hkeep c (List.mem_append_right _ hc)
    have hpc := hA.tagged.pin f hf c (by simp [hc]) hcb.symm id
    unfold hsize hused
    rw [h1]
    refine ⟨rfl, rfl, fun _ => ?_, fun _ => ⟨fun hz => absurd ⟨hfit, hcb⟩ hz, ?_⟩⟩
    · unfold hpin at hpc ⊢
      rw [h1, hpc, hfree]
    · refine (hA.apart f hf c (by simp [hc]) hcb.symm).resolve_left ?_
      rw [hfree]
      exact fun h => by cases h
  · exact shown_of_header (hhead.trans (Nat.add_assoc _ _ _)) hnb8 (by omega)
      (decide_eq_true (by omega))
  · exact shown_of_header hnew (by dsimp only; omega) (by decide) rfl
  · dsimp only
    rw [hpinf, hfoot]
    refine ⟨fun hz => hA.tagged.pin x (by simp [hx']) f hf hxa hz, fun hu => ⟨fun hz => ?_, rfl⟩⟩
    exact hA.tagged.foot x (by simp [hx']) f hf hxa hu id
  · dsimp only
    rw [hpinf]
    exact hA.tagged.first f hf ha
  · exact hpin_of_header hnew (by omega) rfl
  · rw [hfl]
    constructor
    · rintro (rfl | ⟨h1, h2⟩)
      · exact Or.inr (Or.inr ⟨rfl, rfl⟩)
      · refine Or.inl ⟨h1, fun d hd => ?_⟩
        rw [List.mem_singleton.1 hd]
        exact h2.symm
    · rintro (⟨h1, h2⟩ | ⟨_, hu⟩ | ⟨h1, _⟩)
      · exact Or.inr ⟨h1, (h2 f (List.mem_singleton_self f)).symm⟩
      · cases hu
      · exact Or.inl h1

/-- The chunks after a hole has been taken whole. -/
theorem Arena.takeWhole (hA : Wf h (xs ++ [f] ++ ys) fl) (hfit : ¬ nb + 16 ≤ f.size)
    (hl : Listed h' fl') (hend : h'.endAddr = h.endAddr)
    (hfl : ∀ z, z ∈ fl' ↔ z ∈ fl ∧ z ≠ f.addr)
    (hhead : h'.mem.read32 (f.addr + 4) = f.size + 2 + h.mem.read32 (f.addr + 4) % 2)
    (hnext : ∀ c ∈ ys, c.addr = f.addr + f.size →
      h'.mem.read32 (c.addr + 4) = h.mem.read32 (c.addr + 4) / 2 * 2 + 1)
    (hkeep : ∀ c ∈ xs ++ ys, c.addr ≠ f.addr + f.size →
      h'.mem.read32 (c.addr + 4) = h.mem.read32 (c.addr + 4) ∧
      h'.mem.read32 c.addr = h.mem.read32 c.addr)
    (hfoot : h'.mem.read32 f.addr = h.mem.read32 f.addr) :
    Arena h' (xs ++ carve f nb ++ ys) fl' Nowhere (staleFoot f nb) := by
  have hf : f ∈ xs ++ [f] ++ ys := by simp
  have hbf := hA.mem_bounds hf
  have htiles := hA.tiles
  rw [List.append_assoc, List.singleton_append] at htiles
  obtain ⟨hx, _, _, hy⟩ := htiles.split
  have hpinf : hpin h'.mem f.addr = hpin h.mem f.addr := hpin_congr (by omega)
  rw [show carve f nb = [⟨f.addr, f.size, true⟩] from if_neg hfit]
  refine hA.replaceOne (F := ⟨f.addr, f.size, true⟩) hl hx (by dsimp only; omega)
    (by dsimp only; omega) (by rw [hend]; exact hy) hkeep (fun c hc hcb => ?_) ?_
    (fun x hx' hxa => ?_) (fun ha => ?_) (fun z => ?_) (fun _ _ h => h) (fun _ _ h => h.elim)
  · obtain ⟨h1, h2, h3⟩ := tags_of_setPinuse (hnext c hc hcb)
    exact ⟨h1, h2, fun _ => h3, fun hu => by cases hu⟩
  · exact shown_of_header (hhead.trans (Nat.add_assoc _ _ _)) (by dsimp only; omega) (by omega)
      (decide_eq_true (by omega))
  · dsimp only
    rw [hpinf, hfoot]
    refine ⟨fun hz => hA.tagged.pin x (by simp [hx']) f hf hxa hz, fun hu => ⟨fun hz => ?_, rfl⟩⟩
    exact hA.tagged.foot x (by simp [hx']) f hf hxa hu id
  · dsimp only
    rw [hpinf]
    exact hA.tagged.first f hf ha
  · rw [hfl]
    constructor
    · rintro ⟨h1, h2⟩
      refine Or.inl ⟨h1, fun d hd => ?_⟩
      rw [List.mem_singleton.1 hd]
      exact h2.symm
    · rintro (⟨h1, h2⟩ | ⟨_, hu⟩)
      · exact ⟨h1, (h2 f (List.mem_singleton_self f)).symm⟩
      · cases hu

/-! ## Taking a hole -/

theorem wp_hassert {b : Bool} {expr : String} {Q : Unit → Heap → Prop} (hb : b = true)
    (hQ : Q () h) : Wp (Allowed h.head W U S M) err (hassert b expr) Q h := by
  unfold hassert
  rw [if_pos hb]
  exact .pure hQ

/-- Reading a word that neither the list nor the headers of `set_inuse` hold. -/
theorem read_inuseState {a size b : ℕ} (ha : a % 8 = 0) (hlt : a + size + 8 ≤ 33554440)
    (hsize : size % 8 = 0) (hb : b % 4 = 0) (hbl : b < 4294967296) (h1 : b ≠ a + 4)
    (h2 : b ≠ a + size + 4) : (inuseState h a size).mem.read32 b = h.mem.read32 b := by
  unfold inuseState
  rw [read_write_ne (by omega) hb h2 (by omega) hbl, read_write_ne (by omega) hb h1 (by omega) hbl]

theorem Listed.inuseState (hl : Listed h fl) {a size : ℕ} (ha : a % 8 = 0)
    (hlt : a + size + 8 ≤ 33554440) (hsize : size % 8 = 0) (h1 : ¬ ListWord h fl (a + 4))
    (h2 : ¬ ListWord h fl (a + size + 4)) : Listed (inuseState h a size) fl :=
  (hl.write (by omega) (by omega) h1).write (by omega) (by omega) h2

theorem read_inuseState_self {a size : ℕ} (ha : a % 8 = 0) (hlt : a + size + 8 ≤ 33554440)
    (hsize : size % 8 = 0) (hpos : 8 ≤ size) : (inuseState h a size).mem.read32 (a + 4) =
      size + 2 + h.mem.read32 (a + 4) % 2 := by
  unfold inuseState
  rw [read_write_ne (by omega) (by omega) (by omega) (by omega) (by omega)]
  exact read_write_self (by omega)

theorem read_inuseState_next {a size : ℕ} : (inuseState h a size).mem.read32 (a + size + 4) =
    h.mem.read32 (a + size + 4) / 2 * 2 + 1 := by
  have := Mem.read32_lt h.mem (a + size + 4)
  exact read_write_self (by omega)

/-- `set_inuse` changes the size of its own chunk only. -/
theorem Listed.bySize_inuseState (hl : Listed h fl) {a size : ℕ} (ha : a % 8 = 0)
    (hlt : a + size + 8 ≤ 33554440) (hsize : size % 8 = 0) (hne : ∀ x ∈ fl, x ≠ a)
    (hb : BySize h.mem fl) : BySize (Heap.inuseState h a size).mem fl := by
  have hs := hl.sane.bounds
  refine hb.congr fun x hx => ?_
  have hrx := hl.range x hx
  have hxa := hne x hx
  unfold Heap.hsize
  by_cases hnext : x = a + size
  · -- the chunk behind gets its `PINUSE` bit
    rw [hnext, read_inuseState_next]
    omega
  · rw [read_inuseState ha hlt hsize (by omega) (by omega) (by omega) (by omega)]

/-- The other chunks are outside the hole. -/
theorem Arena.others {Zp Zf : ℕ → Prop} (hA : Arena h (xs ++ [f] ++ ys) fl Zp Zf) {c : Chunk}
    (hc : c ∈ xs ++ ys) : c ∈ xs ++ [f] ++ ys ∧
      (c.addr + c.size ≤ f.addr ∨ f.addr + f.size ≤ c.addr) := by
  have hc' : c ∈ xs ++ [f] ++ ys := by
    simp only [List.mem_append] at hc ⊢
    tauto
  refine ⟨hc', ?_⟩
  rcases hA.tiles.sep hc' (show f ∈ xs ++ [f] ++ ys by simp) with rfl | h1
  · have hn := hA.tiles.nodup
    rw [List.append_assoc, List.nodup_append] at hn
    rcases List.mem_append.1 hc with h1 | h1
    · exact absurd rfl (hn.2.2 _ h1 _ (by simp))
    · exact absurd h1 (List.nodup_cons.1 hn.2.1).1
  · exact h1

/-- The hole `f` has left the list; nothing but links has changed. -/
structure Detached (h h₁ : Heap) (fl fl₁ : List ℕ) (f : Chunk) : Prop where
  listed : Listed h₁ fl₁
  endAddr : h₁.endAddr = h.endAddr
  head : h₁.head = h.head
  list : ∀ z, z ∈ fl₁ ↔ z ∈ fl ∧ z ≠ f.addr
  words : ∀ z, 16777216 ≤ z → z % 4 = 0 → z < 4294967296 → (∀ x ∈ fl₁, z ≠ x + 8 ∧ z ≠ x + 12) →
    h₁.mem.read32 z = h.mem.read32 z

/-- The chunks still listed are outside the hole. -/
theorem Detached.outside (hd : Detached h h₁ fl fl₁ f) (hA : Wf h (xs ++ [f] ++ ys) fl) {x : ℕ}
    (hx : x ∈ fl₁) : x + 16 ≤ f.addr ∨ f.addr + f.size ≤ x :=
  (hA.sep_listed (show f ∈ xs ++ [f] ++ ys by simp) ((hd.list x).1 hx).1).resolve_left
    ((hd.list x).1 hx).2

theorem Detached.headWord (hd : Detached h h₁ fl fl₁ f) (hA : Wf h (xs ++ [f] ++ ys) fl) :
    h₁.mem.read32 (f.addr + 4) = h.mem.read32 (f.addr + 4) := by
  have hb := hA.mem_bounds (show f ∈ xs ++ [f] ++ ys by simp)
  refine hd.words _ (by omega) (by omega) (by omega) fun x hx => ?_
  have := hd.outside hA hx
  omega

theorem Detached.size (hd : Detached h h₁ fl fl₁ f) (hA : Wf h (xs ++ [f] ++ ys) fl) :
    hsize h₁.mem f.addr = f.size := by
  unfold hsize
  rw [hd.headWord hA]
  exact (hA.tagged.shown f (by simp)).1

/-- The tags of the other chunks. -/
theorem Detached.tags_ne_links (hd : Detached h h₁ fl fl₁ f) (hA : Wf h (xs ++ [f] ++ ys) fl)
    {c : Chunk} (hc : c ∈ xs ++ ys) {x : ℕ} (hx : x ∈ fl₁) :
    c.addr ≠ x + 8 ∧ c.addr ≠ x + 12 ∧ c.addr + 4 ≠ x + 8 ∧ c.addr + 4 ≠ x + 12 := by
  have h1 := hA.sep_listed (hA.others hc).1 ((hd.list x).1 hx).1
  have h2 := hA.mem_bounds (hA.others hc).1
  omega

/-- **`splitHole`**, where the rest of the hole makes a chunk. -/
theorem wp_splitHole (hA : Wf h (xs ++ [f] ++ ys) fl) (hd : Detached h h₁ fl fl₁ f)
    (hfree : f.used = false) (hnb : 16 ≤ nb) (hnb8 : nb % 8 = 0) (hfit : nb + 16 ≤ f.size)
    (hW : ∀ z, MetaWord (xs ++ [f] ++ ys) z → W z) {Q : Unit → Heap → Prop}
    (hQ : ∀ h' fl', Arena h' (xs ++ carve f nb ++ ys) fl' Nowhere (staleFoot f nb) →
      h'.endAddr = h.endAddr → h'.head = h.head →
      (∀ z, z % 4 = 0 → f.addr + 16 ≤ z → z + 4 ≤ f.addr + nb →
        h'.mem.read32 z = h.mem.read32 z) → (BySize h₁.mem fl₁ → BySize h'.mem fl') → Q () h') :
    Wp (Allowed h.head W U S M) err (splitHole env f.addr nb) Q h₁ := by
  have hf : f ∈ xs ++ [f] ++ ys := by simp
  obtain ⟨hlo, ha8, hs16, hs8, hhi, hmax⟩ := hA.mem_bounds hf
  have hs₁ := hd.listed.sane
  have he₁ := hd.endAddr
  have hout : ∀ x ∈ fl₁, x + 16 ≤ f.addr ∨ f.addr + f.size ≤ x := fun x hx => hd.outside hA hx
  have hWf : ∀ z, f.addr + 4 ≤ z → z < f.addr + f.size + 4 → W z := fun z h1 h2 =>
    hW z (Or.inr ⟨f, hf, hfree, h1, h2⟩)
  rw [← hd.head]
  unfold splitHole
  refine .bind (wp_chunksize hs₁ hlo (by omega) ?_)
  rw [hd.size hA, show Word32.add nb minChunkSize = nb + 16 from
    Word32.add_eq (show nb + 16 < 4294967296 by omega), if_pos hfit]
  refine .bind (wp_chunksize hs₁ hlo (by omega) ?_)
  rw [hd.size hA]
  dsimp only
  rw [Word32.sub_eq (show f.size < 4294967296 by omega) (by omega),
    Word32.add_eq (show f.addr + nb < 4294967296 by omega),
    show headOf (f.addr + nb) = f.addr + nb + 4 from Word32.add_eq (by omega)]
  refine .bind (wp_store hs₁ (Or.inl ⟨by unfold heapStart; omega, by omega⟩)
    (Or.inl (hWf _ (by omega) (by omega))) ?_)
  have hl₂ : Listed (h₁.write (f.addr + nb + 4) (f.size - nb)) fl₁ := by
    refine hd.listed.write (by omega) (by omega) (not_listWord hs₁ (by omega) fun x hx => ?_)
    have := hout x hx
    omega
  have hfits : Fits (h₁.write (f.addr + nb + 4) (f.size - nb)) fl₁ (f.addr + nb) := by
    refine ⟨by omega, by omega, by rw [write_endAddr]; omega, fun x hx => ?_⟩
    have := hout x hx
    omega
  refine .bind (wp_insertChunk_words hl₂ hfits (fun x hx => ?_) ?_)
  · rcases List.mem_cons.1 hx with rfl | hx
    · exact ⟨hWf _ (by omega) (by omega), hWf _ (by omega) (by omega)⟩
    · exact (hA.links_meta ((hd.list x).1 hx).1).imp (hW _) (hW _)
  intro h₃ fl₃ hl₃ he₃ hh₃ hfl₃ hwords₃ hord₃
  rw [write_head] at hh₃
  rw [write_endAddr] at he₃
  have hword₃ : ∀ z, 16777216 ≤ z → z % 4 = 0 → z < 4294967296 → z ≠ f.addr + nb + 4 →
      (∀ x, x = f.addr + nb ∨ x ∈ fl₁ → z ≠ x + 8 ∧ z ≠ x + 12) →
      h₃.mem.read32 z = h.mem.read32 z := by
    intro z h1 h2 h3 h4 h5
    rw [hwords₃ z h1 h2 h3 h5, read_write_ne (by omega) h2 h4 (by omega) h3]
    exact hd.words z h1 h2 h3 fun x hx => h5 x (Or.inr hx)
  have hnot₃ : ∀ z, 16777216 ≤ z → (∀ x, x = f.addr + nb ∨ x ∈ fl₁ → z ≠ x + 8 ∧ z ≠ x + 12) →
      ¬ ListWord h₃ fl₃ z :=
    fun z h1 h2 => not_listWord hl₃.sane h1 fun x hx => h2 x ((hfl₃ x).1 hx)
  -- no link in the part that is handed out, its own two words apart
  have hfar : ∀ z, f.addr ≤ z → z < f.addr + nb → z ≠ f.addr + 8 → z ≠ f.addr + 12 →
      ∀ x, x = f.addr + nb ∨ x ∈ fl₁ → z ≠ x + 8 ∧ z ≠ x + 12 := by
    intro z h1 h2 h3 h4 x hx
    rcases hx with rfl | hx
    · omega
    · have := hout x hx
      omega
  have hfarNew : ∀ x, x = f.addr + nb ∨ x ∈ fl₁ →
      f.addr + nb + 4 ≠ x + 8 ∧ f.addr + nb + 4 ≠ x + 12 := by
    intro x hx
    rcases hx with rfl | hx
    · omega
    · have := hout x hx
      omega
  rw [← hh₃]
  refine wp_setInuse hl₃.sane ha8 hlo hnb8 (by omega) (by omega) (hWf _ (by omega) (by omega))
    (hWf _ (by omega) (by omega)) ?_
  have hnew₃ : h₃.mem.read32 (f.addr + nb + 4) = f.size - nb := by
    rw [hwords₃ _ (by omega) (by omega) (by omega) hfarNew]
    exact read_write_self (by omega)
  have hkeep : ∀ z, 16777216 ≤ z → z % 4 = 0 → z < 4294967296 → z ≠ f.addr + 4 →
      z ≠ f.addr + nb + 4 → (∀ x, x = f.addr + nb ∨ x ∈ fl₁ → z ≠ x + 8 ∧ z ≠ x + 12) →
      (inuseState h₃ f.addr nb).mem.read32 z = h.mem.read32 z := by
    intro z h1 h2 h3 h4 h5 h6
    rw [read_inuseState ha8 (by omega) hnb8 h2 h3 h4 h5]
    exact hword₃ z h1 h2 h3 h5 h6
  refine hQ _ _ (Arena.split hA hfree hnb hnb8 hfit (hl₃.inuseState ha8 (by omega) hnb8
    (hnot₃ _ (by omega) (hfar _ (by omega) (by omega) (by omega) (by omega)))
    (hnot₃ _ (by omega) hfarNew)) (he₃.trans he₁) (fun z => ?_) ?_ ?_ (fun c hc => ?_) ?_)
    (he₃.trans he₁) (hh₃.trans hd.head) (fun z h1 h2 h3 => ?_) fun hb => ?_
  · rw [hfl₃, hd.list]
  · rw [read_inuseState_self ha8 (by omega) hnb8 (by omega),
      hword₃ _ (by omega) (by omega) (by omega) (by omega)
        (hfar _ (by omega) (by omega) (by omega) (by omega))]
  · rw [read_inuseState_next, hnew₃]
    omega
  · obtain ⟨hc', hcf⟩ := hA.others hc
    have hcb := hA.mem_bounds hc'
    constructor
    · refine hkeep _ (by omega) (by omega) (by omega) (by omega) (by omega) fun x hx => ?_
      rcases hx with rfl | hx
      · omega
      · exact (hd.tags_ne_links hA hc hx).2.2
    · refine hkeep _ (by omega) (by omega) (by omega) (by omega) (by omega) fun x hx => ?_
      rcases hx with rfl | hx
      · omega
      · have := hd.tags_ne_links hA hc hx
        exact ⟨this.1, this.2.1⟩
  · exact hkeep _ (by omega) (by omega) (by omega) (by omega) (by omega)
      (hfar _ (by omega) (by omega) (by omega) (by omega))
  · exact hkeep z (by omega) h1 (by omega) (by omega) (by omega)
      (hfar z (by omega) (by omega) (by omega) (by omega))
  · -- the two headers written are not listed when they change
    refine hl₃.bySize_inuseState ha8 (by omega) hnb8 (fun x hx => ?_)
      (hord₃ (hd.listed.bySize_write (by omega) (by omega) (fun x hx => ?_) hb))
    · rcases (hfl₃ x).1 hx with rfl | hx
      · omega
      · have := hout x hx
        omega
    · have := hout x hx
      omega

/-- **`splitHole`**, where the hole is handed out whole. -/
theorem wp_splitHole_whole (hA : Wf h (xs ++ [f] ++ ys) fl) (hd : Detached h h₁ fl fl₁ f)
    (hfree : f.used = false) (hfit : ¬ nb + 16 ≤ f.size) (hle : nb ≤ f.size)
    (hW : ∀ z, MetaWord (xs ++ [f] ++ ys) z → W z)
    (hspill : f.addr + f.size = h.endAddr → (env.ext (h.endAddr / 4096) = false → err) ∧
      (env.ext (h.endAddr / 4096) = true → S h.endAddr)) {Q : Unit → Heap → Prop}
    (hQ : ∀ h' fl', (f.addr + f.size = h.endAddr → env.ext (h.endAddr / 4096) = true) →
      Arena h' (xs ++ carve f nb ++ ys) fl' Nowhere (staleFoot f nb) →
      h'.endAddr = h.endAddr → h'.head = h.head →
      (∀ z, z % 4 = 0 → f.addr + 16 ≤ z → z + 4 ≤ f.addr + nb →
        h'.mem.read32 z = h.mem.read32 z) → (BySize h₁.mem fl₁ → BySize h'.mem fl') → Q () h') :
    Wp (Allowed h.head W U S M) err (splitHole env f.addr nb) Q h₁ := by
  have hf : f ∈ xs ++ [f] ++ ys := by simp
  obtain ⟨hlo, ha8, hs16, hs8, hhi, hmax⟩ := hA.mem_bounds hf
  have hs₁ := hd.listed.sane
  have he₁ := hd.endAddr
  have hWf : ∀ z, f.addr + 4 ≤ z → z < f.addr + f.size + 4 → W z := fun z h1 h2 =>
    hW z (Or.inr ⟨f, hf, hfree, h1, h2⟩)
  rw [← hd.head]
  unfold splitHole
  refine .bind (wp_chunksize hs₁ hlo (by omega) ?_)
  rw [hd.size hA, show Word32.add nb minChunkSize = nb + 16 from
    Word32.add_eq (show nb + 16 < 4294967296 by omega), if_neg hfit]
  refine .bind (wp_chunksize hs₁ hlo (by omega) ?_)
  rw [hd.size hA]
  have hnot₁ : ∀ z, z = f.addr + 4 ∨ z = f.addr + f.size + 4 → ¬ ListWord h₁ fl₁ z := by
    refine fun z hz => not_listWord hs₁ (by omega) fun x hx => ?_
    have := hd.outside hA hx
    rcases hz with rfl | rfl <;> omega
  have hread : ∀ z, 16777216 ≤ z → z % 4 = 0 → z < 4294967296 → z ≠ f.addr + 4 →
      z ≠ f.addr + f.size + 4 → (∀ x ∈ fl₁, z ≠ x + 8 ∧ z ≠ x + 12) →
      (inuseState h₁ f.addr f.size).mem.read32 z = h.mem.read32 z := by
    intro z h1 h2 h3 h4 h5 h6
    rw [read_inuseState ha8 (by omega) hs8 h2 h3 h4 h5]
    exact hd.words z h1 h2 h3 h6
  have hdone : (f.addr + f.size = h.endAddr → env.ext (h.endAddr / 4096) = true) →
      Q () (inuseState h₁ f.addr f.size) := by
    intro hext
    refine hQ _ _ hext (Arena.takeWhole hA hfit (hd.listed.inuseState ha8 (by omega) hs8
      (hnot₁ _ (Or.inl rfl)) (hnot₁ _ (Or.inr rfl))) he₁ hd.list ?_ (fun c hc hcb => ?_)
      (fun c hc hne => ?_) ?_) he₁ hd.head (fun z h1 h2 h3 => ?_)
      fun hb => hd.listed.bySize_inuseState ha8 (by omega) hs8 (fun x hx => ?_) hb
    · rw [read_inuseState_self ha8 (by omega) hs8 (by omega), hd.headWord hA]
    · have hc' := List.mem_append_right xs hc
      have hcb' := hA.mem_bounds (hA.others hc').1
      rw [hcb, read_inuseState_next, hd.words _ (by omega) (by omega) (by omega) fun x hx => ?_]
      rw [← hcb]
      exact (hd.tags_ne_links hA hc' hx).2.2
    · obtain ⟨hc', hcf⟩ := hA.others hc
      have hcb := hA.mem_bounds hc'
      constructor
      · exact hread _ (by omega) (by omega) (by omega) (by omega) (by omega) fun x hx =>
          (hd.tags_ne_links hA hc hx).2.2
      · refine hread _ (by omega) (by omega) (by omega) (by omega) (by omega) fun x hx => ?_
        have := hd.tags_ne_links hA hc hx
        exact ⟨this.1, this.2.1⟩
    · refine hread _ (by omega) (by omega) (by omega) (by omega) (by omega) fun x hx => ?_
      have := hd.outside hA hx
      omega
    · refine hread _ (by omega) h1 (by omega) (by omega) (by omega) fun x hx => ?_
      have := hd.outside hA hx
      omega
    · exact ((hd.list x).1 hx).2
  exact hA.wp_setInuse hf hs₁ he₁ ha8 hlo hs8 (by omega) rfl (hWf _ (by omega) (by omega))
    (fun n hn => hW _ (Or.inl ⟨n, hn, rfl⟩)) hspill hdone

/-- **Taking a hole.** -/
theorem wp_takeHole (hA : Wf h (xs ++ [f] ++ ys) fl) (hfree : f.used = false) (hnb : 16 ≤ nb)
    (hnb8 : nb % 8 = 0) (hle : nb ≤ f.size) (hW : ∀ z, MetaWord (xs ++ [f] ++ ys) z → W z)
    (hspill : ¬ nb + 16 ≤ f.size → f.addr + f.size = h.endAddr →
      (env.ext (h.endAddr / 4096) = false → err) ∧ (env.ext (h.endAddr / 4096) = true → S h.endAddr))
    {Q : ℕ → Heap → Prop}
    (hQ : ∀ h' fl',
      (¬ nb + 16 ≤ f.size → f.addr + f.size = h.endAddr → env.ext (h.endAddr / 4096) = true) →
      Arena h' (xs ++ carve f nb ++ ys) fl' Nowhere (staleFoot f nb) →
      h'.endAddr = h.endAddr → h'.head = h.head →
      (∀ z, z % 4 = 0 → f.addr + 16 ≤ z → z + 4 ≤ f.addr + nb →
        h'.mem.read32 z = h.mem.read32 z) → (BySize h.mem fl → BySize h'.mem fl') →
      Q (f.addr + 8) h') :
    Wp (Allowed h.head W U S M) err (takeHole env f.addr nb) Q h := by
  have hf : f ∈ xs ++ [f] ++ ys := by simp
  obtain ⟨hlo, _, _, _, hhi, hmax⟩ := hA.mem_bounds hf
  have hmem : f.addr ∈ fl := (hA.free _).2 ⟨f, hf, rfl, hfree⟩
  unfold takeHole
  refine .bind (wp_chunksize hA.listed.sane hlo (by omega) ?_)
  rw [(hA.tagged.shown f hf).1]
  refine .bind (wp_hassert (decide_eq_true hle) ?_)
  refine .bind (wp_removeChunk_words hA.listed hmem (fun x hx =>
    (hA.links_meta hx).imp (hW _) (hW _)) ?_)
  intro h₁ fl₁ hl₁ he₁ hh₁ hfl₁ hwords₁ hord₁
  have hd : Detached h h₁ fl fl₁ f := ⟨hl₁, he₁, hh₁, hfl₁, hwords₁⟩
  rw [show listOf f.addr = f.addr + 8 from Word32.add_eq (by omega)]
  by_cases hfit : nb + 16 ≤ f.size
  · refine .bind (wp_splitHole hA hd hfree hnb hnb8 hfit hW ?_)
    intro h' fl' hA' he hh hkeep hord
    exact .pure (hQ h' fl' (fun h => absurd hfit h) hA' he hh hkeep fun hb => hord (hord₁ hb))
  · refine .bind (wp_splitHole_whole hA hd hfree hfit hle hW (hspill hfit) ?_)
    intro h' fl' hext hA' he hh hkeep hord
    exact .pure (hQ h' fl' (fun _ => hext) hA' he hh hkeep fun hb => hord (hord₁ hb))

end

end Heap

end Ospp
