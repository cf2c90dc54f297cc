import Ospp.Mm.HeapFree

/-!
# Aligned allocation

What `palignedAlloc_unlocked` does to the chunks. It allocates enough to find a page boundary
inside, gives the chunk before that boundary back to the list, and releases what is left behind.

The header at the page boundary is made out of whatever the memory held: its `PINUSE` bit is the one
that was there, although the chunk before it is free now.
-/

namespace Ospp

open Cmd

namespace Heap

/-- Where the aligned chunk starts in a chunk at `a`. -/
def alignedAddr (a : ℕ) : ℕ :=
  if (a + 8) % 4096 = 0 then a
  else if a + 16 ≤ (a + 8) / 4096 * 4096 + 4088 then (a + 8) / 4096 * 4096 + 4088
  else (a + 8) / 4096 * 4096 + 8184

/-- The chunk that is skipped. -/
def leadOf (a : ℕ) : List Chunk :=
  if alignedAddr a = a then [] else [⟨a, alignedAddr a - a, false⟩]

/-- The word at the page boundary has the lowest bit set before it becomes a header. -/
def StalePin (m : Mem) (a : ℕ) : Prop := alignedAddr a ≠ a ∧ m.read32 (alignedAddr a + 4) % 2 = 1

section

variable {env : HeapEnv} {W : ℕ → Prop} {U : ℕ → ℕ → Prop} {S : ℕ → Prop} {M err : Prop} {h h' : Heap}
  {xs ys zs cs : List Chunk} {fl fl' : List ℕ} {f c : Chunk} {nb e : ℕ} {Zf : ℕ → Prop}

theorem alignedAddr_bounds {a : ℕ} (ha : a % 8 = 0) : (alignedAddr a + 8) % 4096 = 0 ∧
    (alignedAddr a = a ∨ (a + 16 ≤ alignedAddr a ∧
      (alignedAddr a + 8 ≤ a + 4096 ∨ alignedAddr a = a + 4104))) := by
  unfold alignedAddr
  split_ifs with h1 h2 <;> omega

/-- The chunks after the lead has been split off. -/
theorem Arena.splitLead (hA : Arena h (xs ++ [c] ++ zs) fl Nowhere Zf) (hused : c.used = true)
    (hbefore : ∀ x ∈ xs, x.addr + x.size = c.addr → x.used = true)
    {pos : ℕ} (hpos8 : pos % 8 = 0) (hlead : c.addr + 16 ≤ pos)
    (hroom : pos + 16 ≤ c.addr + c.size) (hl : Listed h' fl') (hend : h'.endAddr = h.endAddr)
    (hfl : ∀ z, z ∈ fl' ↔ z = c.addr ∨ z ∈ fl)
    (hhead : h'.mem.read32 (c.addr + 4) = pos - c.addr + 1)
    (hnew : h'.mem.read32 (pos + 4) = c.addr + c.size - pos + 2 + h.mem.read32 (pos + 4) % 2)
    (hfoot : h'.mem.read32 pos = pos - c.addr)
    (hnext : ∀ n ∈ zs, n.addr = c.addr + c.size →
      h'.mem.read32 (n.addr + 4) = h.mem.read32 (n.addr + 4) / 2 * 2 + 1 ∧
      h'.mem.read32 n.addr = h.mem.read32 n.addr)
    (hkeep : ∀ n ∈ xs ++ zs, n.addr ≠ c.addr + c.size →
      h'.mem.read32 (n.addr + 4) = h.mem.read32 (n.addr + 4) ∧
      h'.mem.read32 n.addr = h.mem.read32 n.addr) :
    Arena h' (xs ++ [⟨c.addr, pos - c.addr, false⟩, ⟨pos, c.addr + c.size - pos, true⟩] ++ zs) fl'
      (fun z => z = pos ∧ h.mem.read32 (pos + 4) % 2 = 1) Zf := by
  have hc : c ∈ xs ++ [c] ++ zs := by simp
  have hcb := hA.mem_bounds hc
  have htiles := hA.tiles
  rw [List.append_assoc, List.singleton_append] at htiles
  obtain ⟨hx, _, _, hz⟩ := htiles.split
  have hpin : hpin h'.mem c.addr = true := hpin_of_header hhead (by omega) rfl
  have hend' : pos + (c.addr + c.size - pos) = c.addr + c.size := by omega
  refine hA.replaceTwo (A := ⟨c.addr, pos - c.addr, false⟩)
    (B := ⟨pos, c.addr + c.size - pos, true⟩) hl hx (by dsimp only; omega) (by dsimp only; omega)
    (by dsimp only; omega) (by dsimp only; omega) (by dsimp only; omega)
    (by dsimp only; rw [hend', hend]; exact hz) (fun n hn hne => ?_) (fun n hn hna => ?_) ?_ ?_
    (fun x hx' hxa => ?_) (fun _ => hpin) ⟨fun hz => ?_, fun _ => ⟨fun _ => hfoot, rfl⟩⟩
    (fun z => ?_) (fun _ _ h => h.elim) (fun _ _ h => h)
  · dsimp only at hne
    rw [hend'] at hne
    exact hkeep n hn hne
  · dsimp only at hna
    rw [hend'] at hna
    obtain ⟨h1, h2, h3⟩ := tags_of_setPinuse (hnext n hn hna).1
    exact ⟨h1, h2, fun _ => h3, fun hu => by cases hu⟩
  · exact shown_of_header hhead (by dsimp only; omega) (by decide) rfl
  · exact shown_of_header (hnew.trans (Nat.add_assoc _ _ _)) (by dsimp only; omega) (by omega)
      (decide_eq_true (by omega))
  · dsimp only
    rw [hpin, hbefore x hx' hxa]
    exact ⟨fun _ => rfl, fun hu => by cases hu⟩
  · exact hpin_of_header (hnew.trans (Nat.add_assoc _ _ _)) (by omega)
      (decide_eq_false fun h => hz ⟨rfl, by omega⟩)
  · rw [hfl]
    constructor
    · rintro (h1 | h1)
      · exact Or.inr (Or.inl ⟨h1, rfl⟩)
      · refine Or.inl ⟨h1, fun d hd hdz => ?_⟩
        rw [List.mem_singleton.1 hd] at hdz
        -- the chunk was in use and not in the list
        obtain ⟨g, hg, hgz, hgu⟩ := (hA.free z).1 h1
        have hgc := hA.tiles.eq_of_addr hg hc (hgz.trans hdz.symm)
        rw [hgc, hused] at hgu
        cases hgu
    · rintro (⟨h1, _⟩ | ⟨h1, _⟩ | ⟨_, hu⟩)
      · exact Or.inr h1
      · exact Or.inl h1
      · cases hu

/-- The position `palignedAlloc_unlocked` computes. -/
theorem skipLead_pos {a : ℕ} (ha : a % 8 = 0) (hlt : a + 16384 ≤ 4294967296)
    (hne : (a + 8) % 4096 ≠ 0) :
    (if minChunkSize ≤ Word32.sub (Word32.sub (Word32.add (Word32.alignDown (a + 8) pageSize)
        pageSize) 8) a then Word32.sub (Word32.add (Word32.alignDown (a + 8) pageSize) pageSize) 8
      else Word32.add (Word32.sub (Word32.add (Word32.alignDown (a + 8) pageSize) pageSize) 8)
        pageSize) = alignedAddr a := by
  have hdown : Word32.alignDown (a + 8) pageSize = (a + 8) / 4096 * 4096 :=
    Word32.alignDown_two_pow (k := 12) (by omega) (by norm_num)
  have hbr : Word32.sub (Word32.add ((a + 8) / 4096 * 4096) pageSize) 8 =
      (a + 8) / 4096 * 4096 + 4088 := by
    unfold pageSize
    rw [Word32.add_eq (by omega), Word32.sub_eq (by omega) (by omega)]
    omega
  rw [hdown, hbr, Word32.sub_eq (show (a + 8) / 4096 * 4096 + 4088 < 4294967296 by omega)
    (by omega)]
  unfold alignedAddr minChunkSize pageSize
  rw [if_neg hne]
  by_cases h16 : a + 16 ≤ (a + 8) / 4096 * 4096 + 4088
  · rw [if_pos (by omega), if_pos h16]
  · rw [if_neg (by omega), if_neg h16, Word32.add_eq (by omega)]

/-- The lead has its header and its footer, and the chunk behind it its header. -/
structure LeadSet (h h₃ : Heap) (c : Chunk) (pos : ℕ) (fl : List ℕ) : Prop where
  listed : Listed h₃ fl
  endAddr : h₃.endAddr = h.endAddr
  head : h₃.head = h.head
  read : ∀ z, z % 4 = 0 → z < 4294967296 → z ≠ pos → z ≠ c.addr + 4 → z ≠ pos + 4 →
    z ≠ c.addr + c.size + 4 → h₃.mem.read32 z = h.mem.read32 z
  posWord : h₃.mem.read32 (pos + 4) = c.addr + c.size - pos + 2 + h.mem.read32 (pos + 4) % 2
  next : h₃.mem.read32 (c.addr + c.size + 4) = h.mem.read32 (c.addr + c.size + 4) / 2 * 2 + 1
  leadWord : h₃.mem.read32 (c.addr + 4) = pos - c.addr + 1
  foot : h₃.mem.read32 pos = pos - c.addr

/-- The headers and the footer are written. -/
theorem wp_setLead {pos : ℕ} (hA : Arena h (xs ++ [c] ++ zs) fl Nowhere Zf) (hused : c.used = true)
    (hpos8 : pos % 8 = 0) (hlead : c.addr + 16 ≤ pos) (hroom : pos + 16 ≤ c.addr + c.size)
    (hW : ∀ z, MetaWord (xs ++ [c] ++ zs) z → W z)
    (hWc : ∀ z, c.addr + 4 ≤ z → z < c.addr + c.size + 4 → W z)
    (hspill : c.addr + c.size = h.endAddr → (env.ext (h.endAddr / 4096) = false → err) ∧
      (env.ext (h.endAddr / 4096) = true → S h.endAddr)) {k : H ℕ} {Q : ℕ → Heap → Prop}
    (hQ : ∀ h₃, LeadSet h h₃ c pos fl → Wp (Allowed h₃.head W U S M) err k Q h₃) :
    Wp (Allowed h.head W U S M) err (setInuse env pos (c.addr + c.size - pos) >>= fun _ =>
      setSizeAndPinuse env c.addr (pos - c.addr) >>= fun _ => store env pos (pos - c.addr) >>=
        fun _ => k) Q h := by
  have hc : c ∈ xs ++ [c] ++ zs := by simp
  obtain ⟨hlo, ha8, hs16, hs8, hhi, hmax⟩ := hA.mem_bounds hc
  have hs := hA.listed.sane
  have hout := fun x (hx : x ∈ fl) => hA.outside_used hc hused hx
  have hend' : pos + (c.addr + c.size - pos) = c.addr + c.size := by omega
  refine .bind (hA.wp_setInuse hc hs rfl (by omega) (by omega) (by omega) (by omega) hend'
    (hWc _ (by omega) (by omega)) (fun n hn => hW _ (Or.inl ⟨n, hn, rfl⟩)) hspill fun _ => ?_)
  have hl₁ : Listed (inuseState h pos (c.addr + c.size - pos)) fl := by
    refine hA.listed.inuseState (by omega) (by omega) (by omega)
      (not_listWord hs (by omega) fun x hx => ?_) (not_listWord hs (by omega) fun x hx => ?_)
    · have := hout x hx
      omega
    · have := hout x hx
      omega
  have hs₁ := hl₁.sane
  refine .bind (wp_setSizeAndPinuse (h := inuseState h pos (c.addr + c.size - pos)) hs₁ hlo
    (show c.addr + 8 ≤ h.endAddr by omega) (by omega) (hWc _ (by omega) (by omega)) ?_)
  have hl₂ := hl₁.write (a := c.addr + 4) (v := pos - c.addr + 1) (by omega) (by omega)
    (not_listWord hs₁ (by omega) fun x hx => by
      have := hout x hx
      omega)
  refine .bind (wp_store (h := (inuseState h pos (c.addr + c.size - pos)).write (c.addr + 4)
    (pos - c.addr + 1)) hl₂.sane
    (Or.inl ⟨by unfold heapStart; omega, show pos + 4 ≤ h.endAddr by omega⟩)
    (Or.inl (hWc _ (by omega) (by omega))) ?_)
  have hl₃ := hl₂.write (a := pos) (v := pos - c.addr) (by omega) (by omega)
    (not_listWord hl₂.sane (by omega) fun x hx => by
      have := hout x hx
      omega)
  refine hQ (((inuseState h pos (c.addr + c.size - pos)).write (c.addr + 4)
    (pos - c.addr + 1)).write pos (pos - c.addr)) ⟨hl₃, rfl, rfl, ?_, ?_, ?_, ?_, ?_⟩
  · intro z h1 h2 h3 h4 h5 h6
    rw [read_write_ne (by omega) h1 h3 (by omega) h2,
      read_write_ne (by omega) h1 h4 (by omega) h2,
      read_inuseState (by omega) (by omega) (by omega) h1 h2 h5 (by omega)]
  · rw [read_write_ne (by omega) (by omega) (by omega) (by omega) (by omega),
      read_write_ne (by omega) (by omega) (by omega) (by omega) (by omega),
      read_inuseState_self (by omega) (by omega) (by omega) (by omega)]
  · have hn : (inuseState h pos (c.addr + c.size - pos)).mem.read32
        (pos + (c.addr + c.size - pos) + 4) =
          h.mem.read32 (pos + (c.addr + c.size - pos) + 4) / 2 * 2 + 1 := read_inuseState_next
    rw [hend'] at hn
    rw [read_write_ne (by omega) (by omega) (by omega) (by omega) (by omega),
      read_write_ne (by omega) (by omega) (by omega) (by omega) (by omega), hn]
  · rw [read_write_ne (by omega) (by omega) (by omega) (by omega) (by omega),
      read_write_self (by omega)]
  · rw [read_write_self (by omega)]

/-- The headers written are not those of listed chunks, or keep their size. -/
theorem LeadSet.bySize {h₃ : Heap} {pos : ℕ} (hset : LeadSet h h₃ c pos fl)
    (hA : Arena h (xs ++ [c] ++ zs) fl Nowhere Zf) (hused : c.used = true) (hpos8 : pos % 8 = 0)
    (hlead : c.addr + 16 ≤ pos) (hroom : pos + 16 ≤ c.addr + c.size) (hb : BySize h.mem fl) :
    BySize h₃.mem fl := by
  have hc : c ∈ xs ++ [c] ++ zs := by simp
  obtain ⟨hlo, ha8, hs16, hs8, hhi, hmax⟩ := hA.mem_bounds hc
  refine hb.congr fun x hx => ?_
  have hxc := hA.outside_used hc hused hx
  have hxr := hA.listed.range x hx
  unfold hsize
  by_cases hnext : x = c.addr + c.size
  · rw [hnext, hset.next]
    omega
  · rw [hset.read _ (by omega) (by omega) (by omega) (by omega) (by omega) (by omega)]

/-- The lead joins the list. -/
theorem LeadSet.wp_insert {h₃ : Heap} {pos : ℕ} (hset : LeadSet h h₃ c pos fl)
    (hA : Arena h (xs ++ [c] ++ zs) fl Nowhere Zf) (hused : c.used = true)
    (hbefore : ∀ x ∈ xs, x.addr + x.size = c.addr → x.used = true)
    (hpos8 : pos % 8 = 0) (hlead : c.addr + 16 ≤ pos) (hroom : pos + 16 ≤ c.addr + c.size)
    (hW : ∀ z, MetaWord (xs ++ [c] ++ zs) z → W z)
    (hWc : ∀ z, c.addr + 4 ≤ z → z < c.addr + c.size + 4 → W z) {Q : ℕ → Heap → Prop}
    (hQ : ∀ h' fl', Arena h' (xs ++ [⟨c.addr, pos - c.addr, false⟩,
        ⟨pos, c.addr + c.size - pos, true⟩] ++ zs) fl'
        (fun z => z = pos ∧ h.mem.read32 (pos + 4) % 2 = 1) Zf →
      h'.endAddr = h.endAddr → h'.head = h.head →
      h'.mem.read32 (pos + 4) % 2 = h.mem.read32 (pos + 4) % 2 →
      (BySize h.mem fl → BySize h'.mem fl') → Q pos h') :
    Wp (Allowed h₃.head W U S M) err
      (insertChunk env c.addr >>= fun _ => (pure pos : H ℕ)) Q h₃ := by
  have hc : c ∈ xs ++ [c] ++ zs := by simp
  obtain ⟨hlo, ha8, hs16, hs8, hhi, hmax⟩ := hA.mem_bounds hc
  have hs := hA.listed.sane
  have hout := fun x (hx : x ∈ fl) => hA.outside_used hc hused hx
  have hend₃ := hset.endAddr
  have hWl : ∀ x ∈ c.addr :: fl, W (x + 8) ∧ W (x + 12) := by
    intro x hx
    rcases List.mem_cons.1 hx with rfl | hx
    · exact ⟨hWc _ (by omega) (by omega), hWc _ (by omega) (by omega)⟩
    · exact (hA.links_meta hx).imp (hW _) (hW _)
  refine .bind (wp_insertChunk_words hset.listed ⟨ha8, hlo, by omega, fun x hx => ?_⟩ hWl ?_)
  · have := hout x hx
    omega
  intro h' fl' hl' hend hhead hfl hsame hord
  have hfar : ∀ z, c.addr ≤ z → z ≤ c.addr + c.size + 4 → z ≠ c.addr + 8 → z ≠ c.addr + 12 →
      ∀ x, x = c.addr ∨ x ∈ fl → z ≠ x + 8 ∧ z ≠ x + 12 := by
    intro z h1 h2 h3 h4 x hx
    rcases hx with rfl | hx
    · exact ⟨h3, h4⟩
    · have := hout x hx
      omega
  have hposr : h'.mem.read32 (pos + 4) =
      c.addr + c.size - pos + 2 + h.mem.read32 (pos + 4) % 2 := by
    rw [hsame _ (by omega) (by omega) (by omega)
      (hfar _ (by omega) (by omega) (by omega) (by omega)), hset.posWord]
  have htags : ∀ n ∈ xs ++ zs, 16777216 ≤ n.addr ∧ n.addr % 8 = 0 ∧ n.addr < 33554432 ∧
      (n.addr + 16 ≤ c.addr ∨ c.addr + c.size ≤ n.addr) ∧ ∀ k, k = 0 ∨ k = 4 →
      ∀ x, x = c.addr ∨ x ∈ fl → n.addr + k ≠ x + 8 ∧ n.addr + k ≠ x + 12 := by
    intro n hn
    obtain ⟨hn', hsep⟩ := hA.others hn
    have hnb := hA.mem_bounds hn'
    refine ⟨by omega, by omega, by omega, by omega, fun k hk x hx => ?_⟩
    rcases hx with rfl | hx
    · omega
    · have := hA.sep_listed hn' hx
      omega
  refine .pure (hQ h' fl' ?_ (hend.trans hend₃) (hhead.trans hset.head) (by omega)
    fun hb => hord (hset.bySize hA hused hpos8 hlead hroom hb))
  refine hA.splitLead hused hbefore (by omega) hlead hroom hl' (hend.trans hend₃) hfl ?_ hposr
    ?_ (fun n hn hna => ?_) fun n hn hne => ?_
  · rw [hsame _ (by omega) (by omega) (by omega)
      (hfar _ (by omega) (by omega) (by omega) (by omega)), hset.leadWord]
  · rw [hsame _ (by omega) (by omega) (by omega)
      (hfar _ (by omega) (by omega) (by omega) (by omega)), hset.foot]
  · obtain ⟨h1, h2, h3, h4, h5⟩ := htags n (List.mem_append_right _ hn)
    constructor
    · rw [hsame _ (by omega) (by omega) (by omega) (h5 4 (Or.inr rfl)), hna, hset.next]
    · rw [hsame n.addr (by omega) (by omega) (by omega) (h5 0 (Or.inl rfl)),
        hset.read _ (by omega) (by omega) (by omega) (by omega) (by omega) (by omega)]
  · obtain ⟨h1, h2, h3, h4, h5⟩ := htags n hn
    constructor
    · rw [hsame _ (by omega) (by omega) (by omega) (h5 4 (Or.inr rfl)),
        hset.read _ (by omega) (by omega) (by omega) (by omega) (by omega) (by omega)]
    · rw [hsame n.addr (by omega) (by omega) (by omega) (h5 0 (Or.inl rfl)),
        hset.read _ (by omega) (by omega) (by omega) (by omega) (by omega) (by omega)]

/-- **Skipping to a page boundary.** -/
theorem wp_skipLead (hA : Arena h (xs ++ [c] ++ zs) fl Nowhere Zf) (hused : c.used = true)
    (hbefore : ∀ x ∈ xs, x.addr + x.size = c.addr → x.used = true)
    (hroom : alignedAddr c.addr + 16 ≤ c.addr + c.size)
    (hW : ∀ z, MetaWord (xs ++ [c] ++ zs) z → W z)
    (hWc : ∀ z, c.addr + 4 ≤ z → z < c.addr + c.size + 4 → W z)
    (hspill : c.addr + c.size = h.endAddr → (env.ext (h.endAddr / 4096) = false → err) ∧
      (env.ext (h.endAddr / 4096) = true → S h.endAddr))
    {Q : ℕ → Heap → Prop}
    (hQ : ∀ h' fl', Arena h' (xs ++ (leadOf c.addr ++ [⟨alignedAddr c.addr,
        c.addr + c.size - alignedAddr c.addr, true⟩]) ++ zs) fl'
        (fun z => z = alignedAddr c.addr ∧ StalePin h.mem c.addr) Zf →
      h'.endAddr = h.endAddr → h'.head = h.head →
      h'.mem.read32 (alignedAddr c.addr + 4) % 2 = h.mem.read32 (alignedAddr c.addr + 4) % 2 →
      (BySize h.mem fl → BySize h'.mem fl') → Q (alignedAddr c.addr) h') :
    Wp (Allowed h.head W U S M) err (skipLead env (c.addr + 8)) Q h := by
  have hc : c ∈ xs ++ [c] ++ zs := by simp
  obtain ⟨hlo, ha8, hs16, hs8, hhi, hmax⟩ := hA.mem_bounds hc
  have hs := hA.listed.sane
  obtain ⟨hal, hcase⟩ := alignedAddr_bounds ha8
  unfold skipLead
  dsimp only
  rw [show Word32.sub (c.addr + 8) 8 = c.addr from
    (Word32.sub_eq (by omega) (by omega)).trans (by omega)]
  by_cases hal0 : (c.addr + 8) % 4096 = 0
  · rw [if_neg (by unfold pageSize; omega)]
    have hpos : alignedAddr c.addr = c.addr := if_pos hal0
    have hlead : leadOf c.addr = [] := if_pos hpos
    rw [hlead, hpos, List.nil_append, show c.addr + c.size - c.addr = c.size by omega,
      show (⟨c.addr, c.size, true⟩ : Chunk) = c by rw [← hused]] at hQ
    exact .pure (hQ h fl (hA.weaken (fun _ _ h => h.elim) fun _ _ h => h) rfl rfl rfl id)
  · rw [if_pos (by unfold pageSize; omega), skipLead_pos ha8 (by omega) hal0]
    have hlead : c.addr + 16 ≤ alignedAddr c.addr := by omega
    have hleadOf : leadOf c.addr = [⟨c.addr, alignedAddr c.addr - c.addr, false⟩] :=
      if_neg (by omega)
    have hstale : StalePin h.mem c.addr ↔ h.mem.read32 (alignedAddr c.addr + 4) % 2 = 1 :=
      ⟨fun h => h.2, fun h => ⟨by omega, h⟩⟩
    rw [hleadOf] at hQ
    simp only [hstale] at hQ
    have hpos8 : alignedAddr c.addr % 8 = 0 := by omega
    generalize alignedAddr c.addr = pos at *
    refine .bind (wp_chunksize hs hlo (by omega) ?_)
    rw [(hA.tagged.shown c hc).1, Word32.sub_eq (show pos < 4294967296 by omega)
      (show c.addr ≤ pos by omega), Word32.sub_eq (show c.size < 4294967296 by omega) (by omega),
      show c.size - (pos - c.addr) = c.addr + c.size - pos by omega]
    exact wp_setLead hA hused hpos8 hlead hroom hW hWc hspill fun h₃ hset =>
      hset.wp_insert hA hused hbefore hpos8 hlead hroom hW hWc hQ

/-! ## Giving back the tail -/

/-- The chunks while the tail is about to be released. -/
theorem Arena.splitTail {Zp : ℕ → Prop} (hA : Arena h (xs ++ [c] ++ zs) fl Zp Zf)
    (hused : c.used = true) (hnb : 16 ≤ nb) (hnb8 : nb % 8 = 0) (hfit : nb + 16 ≤ c.size)
    (hl : Listed h' fl) (hend : h'.endAddr = h.endAddr)
    (hhead : h'.mem.read32 (c.addr + 4) = nb + 2 + h.mem.read32 (c.addr + 4) % 2)
    (hnew : h'.mem.read32 (c.addr + nb + 4) = c.size - nb + 3)
    (hfoot : h'.mem.read32 c.addr = h.mem.read32 c.addr)
    (hnext : ∀ n ∈ zs, n.addr = c.addr + c.size →
      h'.mem.read32 (n.addr + 4) = h.mem.read32 (n.addr + 4) / 2 * 2 + 1)
    (hkeep : ∀ n ∈ xs ++ zs, n.addr ≠ c.addr + c.size →
      h'.mem.read32 (n.addr + 4) = h.mem.read32 (n.addr + 4) ∧
      h'.mem.read32 n.addr = h.mem.read32 n.addr) :
    Arena h' (xs ++ [⟨c.addr, nb, true⟩, ⟨c.addr + nb, c.size - nb, true⟩] ++ zs) fl Zp Zf := by
  have hc : c ∈ xs ++ [c] ++ zs := by simp
  have hcb := hA.mem_bounds hc
  have htiles := hA.tiles
  rw [List.append_assoc, List.singleton_append] at htiles
  obtain ⟨hx, _, _, hz⟩ := htiles.split
  have hpinc : hpin h'.mem c.addr = hpin h.mem c.addr := hpin_congr (by omega)
  have hend' : c.addr + nb + (c.size - nb) = c.addr + c.size := by omega
  refine hA.replaceTwo (A := ⟨c.addr, nb, true⟩) (B := ⟨c.addr + nb, c.size - nb, true⟩) hl hx hnb
    hnb8 rfl (by dsimp only; omega) (by dsimp only; omega)
    (by dsimp only; rw [hend', hend]; exact hz) (fun n hn hne => ?_) (fun n hn hna => ?_) ?_ ?_
    (fun x hx' hxa => ?_) (fun ha => ?_) ⟨fun _ => ?_, fun hu => by cases hu⟩
    (fun z => ?_) (fun _ _ h => h) (fun _ _ h => h)
  · dsimp only at hne
    rw [hend'] at hne
    exact hkeep n hn hne
  · dsimp only at hna
    rw [hend'] at hna
    obtain ⟨h1, h2, h3⟩ := tags_of_setPinuse (hnext n hn hna)
    exact ⟨h1, h2, fun _ => h3, fun hu => by cases hu⟩
  · exact shown_of_header (hhead.trans (Nat.add_assoc _ _ _)) hnb8 (by omega)
      (decide_eq_true (by omega))
  · exact shown_of_header hnew (by dsimp only; omega) (by decide) rfl
  · dsimp only
    rw [hpinc, hfoot]
    exact ⟨fun hz => hA.tagged.pin x (by simp [hx']) c hc hxa hz,
      fun hu => ⟨fun hz => hA.tagged.foot x (by simp [hx']) c hc hxa hu hz, rfl⟩⟩
  · dsimp only
    rw [hpinc]
    exact hA.tagged.first c hc ha
  · exact hpin_of_header hnew (by omega) rfl
  · constructor
    · intro h1
      refine Or.inl ⟨h1, fun d hd hdz => ?_⟩
      rw [List.mem_singleton.1 hd] at hdz
      obtain ⟨g, hg, hgz, hgu⟩ := (hA.free z).1 h1
      have hgc := hA.tiles.eq_of_addr hg hc (hgz.trans hdz.symm)
      rw [hgc, hused] at hgu
      cases hgu
    · rintro (⟨h1, _⟩ | ⟨_, hu⟩ | ⟨_, hu⟩)
      · exact h1
      · cases hu
      · cases hu

/-- The tail with the free chunk behind it. -/
def tailOf (a size : ℕ) (R : Option Chunk) : Chunk := merged none ⟨a, size, true⟩ R

/-- The words of a new layout: every chunk is one of those before, or lies between `a` and `e`. -/
theorem metaWord_of_old {ds : List Chunk} {a e : ℕ}
    (hold : ∀ d ∈ ds, d ∈ cs ∨
      (a ≤ d.addr ∧ d.addr < e ∧ (d.used = false → d.addr + d.size ≤ e)))
    (hW : ∀ z, MetaWord cs z → W z) (hWc : ∀ z, a + 4 ≤ z → z < e + 4 → W z) :
    ∀ z, MetaWord ds z → W z := by
  rintro z (⟨d, hd, rfl⟩ | ⟨d, hd, hu, h1, h2⟩)
  · rcases hold d hd with hd | hd
    · exact hW _ (Or.inl ⟨d, hd, rfl⟩)
    · exact hWc _ (by omega) (by omega)
  · rcases hold d hd with hd | hd
    · exact hW _ (Or.inr ⟨d, hd, hu, h1, h2⟩)
    · have := hd.2.2 hu
      exact hWc _ (by omega) (by omega)

/-- The tail is about to be released. -/
theorem Arena.around_tail {Zp : ℕ → Prop} {R : Option Chunk} {h₂ : Heap}
    (hA₂ : Arena h₂ (xs ++ [⟨c.addr, nb, true⟩] ++
      ((none : Option Chunk).toList ++ [⟨c.addr + nb, c.size - nb, true⟩] ++ R.toList) ++ ys) fl
      Zp Zf) (hA : Arena h (xs ++ [c] ++ (R.toList ++ ys)) fl Zp Zf) (hfit : nb + 16 < c.size)
    (hZp : ∀ z, Zp z → z = c.addr) (hZf : ¬ Zf (c.addr + nb)) (hR : ∀ y ∈ R, y.used = false)
    (hafter : R = none → ∀ y ∈ ys, y.addr = c.addr + c.size → y.used = true) :
    Around h₂ (xs ++ [⟨c.addr, nb, true⟩]) none ⟨c.addr + nb, c.size - nb, true⟩ R ys fl Zp Zf := by
  have hP := places hA₂.tiles
  have hnb := hA₂.mem_bounds (c := ⟨c.addr, nb, true⟩) (by simp)
  dsimp only at hnb
  have hend' : c.addr + nb + (c.size - nb) = c.addr + c.size := by omega
  refine ⟨hA₂, rfl, fun x hx => (by cases hx), hR, fun x hx hxb => ?_, fun y hy hyE => ?_,
    fun h => ?_, hZf, fun h => ?_⟩
  · rcases List.mem_append.1 hx with hx | hx
    · obtain ⟨_, hsep⟩ := hA.others (List.mem_append_left _ hx)
      have h1 : x.addr + x.size = c.addr + nb := hxb
      have h2 := hA.tiles.mem (show x ∈ xs ++ [c] ++ (R.toList ++ ys) by simp [hx])
      omega
    · rw [List.mem_singleton.1 hx]
  · cases hRe : R with
    | none =>
      refine hafter hRe y hy (hyE.trans ((hP.noright hRe).symm.trans ?_))
      exact hend'
    | some r =>
      have hr := hP.right r hRe
      have hadj := hA₂.apart r (by simp [hRe]) y (by simp [hy]) (hr.2.2.2.trans hyE.symm)
      rw [hR r hRe] at hadj
      exact hadj.resolve_left fun h => by cases h
  · have := hZp _ h
    dsimp only at this
    omega
  · have := hZp _ h
    dsimp only at this
    omega

/-- The words of the chunks made out of a used one. -/
theorem metaWord_split {R : Option Chunk} (hfit : nb + 16 < c.size)
    (hW : ∀ z, MetaWord (xs ++ [c] ++ (R.toList ++ ys)) z → W z)
    (hWc : ∀ z, c.addr + 4 ≤ z → z < c.addr + c.size + 4 → W z) :
    ∀ z, MetaWord (xs ++ [⟨c.addr, nb, true⟩] ++ ((none : Option Chunk).toList ++
      [⟨c.addr + nb, c.size - nb, true⟩] ++ R.toList) ++ ys) z → W z := by
  refine metaWord_of_old (fun d hd => ?_) hW hWc
  have hd : d ∈ xs ++ [c] ++ (R.toList ++ ys) ∨ d = ⟨c.addr, nb, true⟩ ∨
      d = ⟨c.addr + nb, c.size - nb, true⟩ := by
    simp only [List.mem_append, List.mem_singleton, Option.toList_none, List.not_mem_nil,
      false_or] at hd ⊢
    tauto
  rcases hd with hd | rfl | rfl
  · exact Or.inl hd
  · exact Or.inr ⟨by dsimp only; omega, by dsimp only; omega, fun hu => by cases hu⟩
  · exact Or.inr ⟨by dsimp only; omega, by dsimp only; omega, fun hu => by cases hu⟩

/-- **Giving back the tail.** -/
theorem wp_splitTail {Zp : ℕ → Prop} {R : Option Chunk}
    (hA : Arena h (xs ++ [c] ++ (R.toList ++ ys)) fl Zp Zf) (hused : c.used = true)
    (hnb : 16 ≤ nb) (hnb8 : nb % 8 = 0) (hfit : nb + 16 < c.size)
    (hZp : ∀ z, Zp z → z = c.addr) (hZf : ¬ Zf (c.addr + nb)) (hR : ∀ y ∈ R, y.used = false)
    (hafter : R = none → ∀ y ∈ ys, y.addr = c.addr + c.size → y.used = true)
    (hW : ∀ z, MetaWord (xs ++ [c] ++ (R.toList ++ ys)) z → W z)
    (hWc : ∀ z, c.addr + 4 ≤ z → z < c.addr + c.size + 4 → W z)
    (hspill : c.addr + c.size = h.endAddr → (env.ext (h.endAddr / 4096) = false → err) ∧
      (env.ext (h.endAddr / 4096) = true → S h.endAddr))
    (hU : ∀ E, E = tailOf (c.addr + nb) (c.size - nb) R → E.addr + E.size = h.endAddr →
      U (trimEnd E.addr) (h.endAddr - trimEnd E.addr))
    {Q : Unit → Heap → Prop}
    (hQ : ∀ h' fl' E, E = tailOf (c.addr + nb) (c.size - nb) R →
      Arena h' (xs ++ [⟨c.addr, nb, true⟩] ++ (trim E h.endAddr).1 ++ ys) fl' Zp
        (fun z => Zf z ∧ z ≠ E.addr + E.size) →
      h'.endAddr = (trim E h.endAddr).2 → h'.head = h.head →
      h'.mem.read32 (c.addr + 4) % 2 = h.mem.read32 (c.addr + 4) % 2 →
      (BySize h.mem fl → BySize h'.mem fl') → Q () h') :
    Wp (Allowed h.head W U S M) err (splitTail env c.addr nb) Q h := by
  have hc : c ∈ xs ++ [c] ++ (R.toList ++ ys) := by simp
  obtain ⟨hlo, ha8, hs16, hs8, hhi, hmax⟩ := hA.mem_bounds hc
  have hs := hA.listed.sane
  have hout := fun x (hx : x ∈ fl) => hA.outside_used hc hused hx
  unfold splitTail
  refine .bind (wp_chunksize hs hlo (by omega) ?_)
  rw [(hA.tagged.shown c hc).1, show Word32.add nb minChunkSize = nb + 16 from
    Word32.add_eq (show nb + 16 < 4294967296 by omega), if_pos hfit]
  dsimp only
  rw [Word32.sub_eq (show c.size < 4294967296 by omega) (by omega),
    Word32.add_eq (show c.addr + nb < 4294967296 by omega),
    show listOf (c.addr + nb) = c.addr + nb + 8 from Word32.add_eq (by omega)]
  refine .bind (wp_setInuse hs ha8 hlo hnb8 (by omega) (by omega) (hWc _ (by omega) (by omega))
    (hWc _ (by omega) (by omega)) ?_)
  have hl₁ : Listed (inuseState h c.addr nb) fl := by
    refine hA.listed.inuseState ha8 (by omega) hnb8 (not_listWord hs (by omega) fun x hx => ?_)
      (not_listWord hs (by omega) fun x hx => ?_)
    · have := hout x hx
      omega
    · have := hout x hx
      omega
  have hs₁ := hl₁.sane
  have hord₁ : BySize h.mem fl → BySize (inuseState h c.addr nb).mem fl :=
    hA.listed.bySize_inuseState ha8 (by omega) hnb8 fun x hx => by
      have := hout x hx
      omega
  have hord₂ : BySize (inuseState h c.addr nb).mem fl →
      BySize (inuseState (inuseState h c.addr nb) (c.addr + nb) (c.size - nb)).mem fl :=
    hl₁.bySize_inuseState (by omega) (by omega) (by omega) fun x hx => by
      have := hout x hx
      omega
  have hend' : c.addr + nb + (c.size - nb) = c.addr + c.size := by omega
  -- what follows the four headers
  have hrest : Wp (Allowed h.head W U S M) err (freeUnlocked env (c.addr + nb + 8)) Q
      (inuseState (inuseState h c.addr nb) (c.addr + nb) (c.size - nb)) := by
    have hl₂ : Listed (inuseState (inuseState h c.addr nb) (c.addr + nb) (c.size - nb)) fl := by
      refine hl₁.inuseState (by omega) (by omega) (by omega)
        (not_listWord hs₁ (by omega) fun x hx => ?_) (not_listWord hs₁ (by omega) fun x hx => ?_)
      · have := hout x hx
        omega
      · have := hout x hx
        omega
    have hself₁ : (inuseState h c.addr nb).mem.read32 (c.addr + 4) =
        nb + 2 + h.mem.read32 (c.addr + 4) % 2 :=
      read_inuseState_self ha8 (by omega) hnb8 (by omega)
    have hnext₁ : (inuseState h c.addr nb).mem.read32 (c.addr + nb + 4) =
        h.mem.read32 (c.addr + nb + 4) / 2 * 2 + 1 := read_inuseState_next
    have hread₁ : ∀ z, z % 4 = 0 → z < 4294967296 → z ≠ c.addr + 4 → z ≠ c.addr + nb + 4 →
        (inuseState h c.addr nb).mem.read32 z = h.mem.read32 z := fun z h1 h2 h3 h4 =>
      read_inuseState ha8 (by omega) hnb8 h1 h2 h3 h4
    have hend₂ : (inuseState (inuseState h c.addr nb) (c.addr + nb) (c.size - nb)).endAddr =
      h.endAddr := rfl
    have hhead₂ : (inuseState (inuseState h c.addr nb) (c.addr + nb) (c.size - nb)).head =
      h.head := rfl
    generalize inuseState h c.addr nb = h₁ at *
    have hself₂ : (inuseState h₁ (c.addr + nb) (c.size - nb)).mem.read32 (c.addr + nb + 4) =
        c.size - nb + 2 + h₁.mem.read32 (c.addr + nb + 4) % 2 :=
      read_inuseState_self (by omega) (by omega) (by omega) (by omega)
    have hnext₂ : (inuseState h₁ (c.addr + nb) (c.size - nb)).mem.read32 (c.addr + c.size + 4) =
        h₁.mem.read32 (c.addr + c.size + 4) / 2 * 2 + 1 := by
      rw [← hend']
      exact read_inuseState_next
    have hread₂ : ∀ z, z % 4 = 0 → z < 4294967296 → z ≠ c.addr + nb + 4 →
        z ≠ c.addr + c.size + 4 →
        (inuseState h₁ (c.addr + nb) (c.size - nb)).mem.read32 z = h₁.mem.read32 z :=
      fun z h1 h2 h3 h4 => read_inuseState (by omega) (by omega) (by omega) h1 h2 h3 (by omega)
    generalize inuseState h₁ (c.addr + nb) (c.size - nb) = h₂ at *
    have hhead : h₂.mem.read32 (c.addr + 4) = nb + 2 + h.mem.read32 (c.addr + 4) % 2 := by
      rw [hread₂ _ (by omega) (by omega) (by omega) (by omega), hself₁]
    have hA₂ : Arena h₂ (xs ++ [⟨c.addr, nb, true⟩] ++
        ((none : Option Chunk).toList ++ [⟨c.addr + nb, c.size - nb, true⟩] ++ R.toList) ++ ys) fl
        Zp Zf := by
      have hsplit := hA.splitTail hused hnb hnb8 (by omega) hl₂ hend₂ hhead
        (by rw [hself₂, hnext₁]; omega)
        (by rw [hread₂ _ (by omega) (by omega) (by omega) (by omega),
          hread₁ _ (by omega) (by omega) (by omega) (by omega)])
        (fun n hn hna => by rw [hna, hnext₂, hread₁ _ (by omega) (by omega) (by omega) (by omega)])
        (fun n hn hne => by
          obtain ⟨hn', hsep⟩ := hA.others hn
          have hnb' := hA.mem_bounds hn'
          rw [hread₂ _ (by omega) (by omega) (by omega) (by omega),
            hread₁ _ (by omega) (by omega) (by omega) (by omega),
            hread₂ _ (by omega) (by omega) (by omega) (by omega),
            hread₁ _ (by omega) (by omega) (by omega) (by omega)]
          exact ⟨rfl, rfl⟩)
      simpa using hsplit
    have hAr := hA₂.around_tail hA hfit hZp hZf hR hafter
    have hmb := hAr.merged_bounds
    dsimp only at hmb
    have hW₂ := metaWord_split (R := R) hfit hW hWc
    rw [← hhead₂]
    refine wp_freeUnlocked hAr hW₂ (fun z h1 h2 => hWc z (by dsimp only at h1; omega)
      (by dsimp only at h2; omega)) (fun _ h17 => by omega)
      (fun htop _ => by rw [hend₂] at htop ⊢; exact hU _ rfl htop) ?_
    intro h' fl' _ hA' hend hhead' hkeep hord
    rw [hend₂] at hA' hend
    refine hQ h' fl' _ rfl hA' hend (hhead'.trans hhead₂) ?_ fun hb => hord (hord₂ (hord₁ hb))
    rw [hkeep ⟨c.addr, nb, true⟩ (by simp), hhead]
    omega
  exact .bind (hA.wp_setInuse hc hs₁ rfl (by omega) (by omega) (by omega) (by omega) hend'
    (hWc _ (by omega) (by omega)) (fun n hn => hW _ (Or.inl ⟨n, hn, rfl⟩)) hspill fun _ => hrest)

/-- Without enough for another chunk nothing is given back. -/
theorem wp_splitTail_none {Zp : ℕ → Prop} (hA : Arena h (xs ++ [c] ++ zs) fl Zp Zf)
    (hnb : nb ≤ 33554432) (hfit : ¬ nb + 16 < c.size) {Q : Unit → Heap → Prop} (hQ : Q () h) :
    Wp (Allowed h.head W U S M) err (splitTail env c.addr nb) Q h := by
  have hc : c ∈ xs ++ [c] ++ zs := by simp
  have hcb := hA.mem_bounds hc
  unfold splitTail
  refine .bind (wp_chunksize hA.listed.sane hcb.1 (by omega) ?_)
  rw [(hA.tagged.shown c hc).1, show Word32.add nb minChunkSize = nb + 16 from
    Word32.add_eq (show nb + 16 < 4294967296 by omega), if_neg hfit]
  exact .pure hQ

/-! ## The whole allocation -/

/-- The size of the chunk taken for `nb` bytes. -/
def taken (f : Chunk) (nb : ℕ) : ℕ := if nb + 16 ≤ f.size then nb else f.size

/-- What is left of the hole. -/
def restOf (f : Chunk) (nb : ℕ) : Option Chunk :=
  if nb + 16 ≤ f.size then some ⟨f.addr + nb, f.size - nb, false⟩ else none

theorem carve_eq (f : Chunk) (nb : ℕ) :
    carve f nb = ⟨f.addr, taken f nb, true⟩ :: (restOf f nb).toList := by
  unfold carve taken restOf
  split_ifs <;> rfl

theorem taken_bounds (hle : nb ≤ f.size) : nb ≤ taken f nb ∧ taken f nb ≤ f.size ∧
    (taken f nb = nb ∨ (taken f nb = f.size ∧ f.size < nb + 16)) := by
  unfold taken
  split_ifs <;> omega

/-- The tail together with the rest of the hole runs to the end of the hole. -/
theorem tailOf_rest {a m : ℕ} (ha : a + nb ≤ f.addr + taken f m) :
    tailOf (a + nb) (f.addr + taken f m - a - nb) (restOf f m) =
      ⟨a + nb, f.addr + f.size - (a + nb), false⟩ := by
  have hsize : ∀ x y : ℕ, x = y → (⟨a + nb, x, false⟩ : Chunk) = ⟨a + nb, y, false⟩ := by
    rintro x _ rfl
    rfl
  unfold taken at ha ⊢
  unfold restOf
  split_ifs at ha ⊢ with hfit
  · refine hsize _ _ ?_
    simp only [Option.map_none, Option.getD_none, Option.map_some, Option.getD_some]
    omega
  · refine hsize _ _ ?_
    simp only [Option.map_none, Option.getD_none]
    omega

/-- The size of the request behind an aligned request. -/
theorem request2size_bounds {n : ℕ} (hn : n ≤ 4294967284) : 16 ≤ request2size n ∧
    request2size n % 8 = 0 ∧ n + 4 ≤ request2size n ∧ request2size n < 4294967296 ∧
    request2size n ≤ max 16 (n + 11) := by
  unfold request2size minChunkSize padRequest
  split_ifs with h11
  · omega
  · rw [Word32.add_eq (show n + 4 < 4294967296 by omega),
      Word32.add_eq (show n + 4 + 7 < 4294967296 by omega), and_compl_seven (by omega)]
    omega

theorem request2size_aligned {n : ℕ} (hn : n ≤ 4294963172) :
    Word32.sub (Word32.add (Word32.add (request2size n) pageSize) minChunkSize) 4 =
      request2size n + 4108 ∧ request2size (request2size n + 4108) = request2size n + 4112 ∧
      request2size n + 4112 < 4294967296 := by
  obtain ⟨h16, h8, _, _, hle⟩ := request2size_bounds (show n ≤ 4294967284 by omega)
  generalize request2size n = nb at *
  refine ⟨?_, ?_, by omega⟩
  · unfold pageSize minChunkSize
    rw [Word32.add_eq (show nb + 4096 < 4294967296 by omega),
      Word32.add_eq (show nb + 4096 + 16 < 4294967296 by omega),
      Word32.sub_eq (by omega) (by omega)]
    omega
  · unfold request2size padRequest
    rw [if_neg (by omega), Word32.add_eq (show nb + 4108 + 4 < 4294967296 by omega),
      Word32.add_eq (show nb + 4108 + 4 + 7 < 4294967296 by omega), and_compl_seven (by omega)]
    omega

/-- What takes the place of the chunk `f`, and where the heap ends then. -/
def alignedLayout (f : Chunk) (nb e : ℕ) : List Chunk × ℕ :=
  if alignedAddr f.addr = f.addr + 4104 then
    (leadOf f.addr ++ [⟨alignedAddr f.addr, f.addr + taken f (nb + 4112) - alignedAddr f.addr,
      true⟩] ++ (restOf f (nb + 4112)).toList, e)
  else
    (leadOf f.addr ++ [⟨alignedAddr f.addr, nb, true⟩] ++
      (trim ⟨alignedAddr f.addr + nb, f.addr + f.size - (alignedAddr f.addr + nb), false⟩ e).1,
      (trim ⟨alignedAddr f.addr + nb, f.addr + f.size - (alignedAddr f.addr + nb), false⟩ e).2)

/-- A footer is left behind only where no tail is released. -/
def alignedStale (f : Chunk) (nb : ℕ) : ℕ → Prop := fun z =>
  alignedAddr f.addr = f.addr + 4104 ∧ staleFoot f (nb + 4112) z

/-- The words of the chunks made out of a free one. -/
theorem metaWord_carve (hf : f.used = false) (hnb : 16 ≤ nb) (hle : nb ≤ f.size)
    (hW : ∀ z, MetaWord (xs ++ [f] ++ ys) z → W z) :
    ∀ z, MetaWord (xs ++ carve f nb ++ ys) z → W z := by
  have ht := taken_bounds hle
  refine metaWord_of_old (a := f.addr) (e := f.addr + f.size) (fun d hd => ?_) hW
    fun w h1 h2 => hW w (Or.inr ⟨f, by simp, hf, h1, h2⟩)
  rw [carve_eq, List.mem_append, List.mem_append] at hd
  rcases hd with (hd | hd) | hd
  · exact Or.inl (by simp [hd])
  · refine Or.inr ?_
    rcases List.mem_cons.1 hd with rfl | hd
    · exact ⟨le_refl _, by dsimp only; omega, fun hu => by cases hu⟩
    · unfold restOf at hd
      split_ifs at hd with hfit
      · obtain rfl : d = ⟨f.addr + nb, f.size - nb, false⟩ := by simpa using hd
        exact ⟨by dsimp only; omega, by dsimp only; omega, fun _ => by dsimp only; omega⟩
      · cases hd
  · exact Or.inl (by simp [hd])

/-- The words of the chunks after the lead has been split off. -/
theorem metaWord_lead {size : ℕ} (ha : f.addr % 8 = 0) (hsize : 4112 < f.size)
    (hW : ∀ z, MetaWord (xs ++ [⟨f.addr, size, true⟩] ++ zs) z → W z)
    (hWf : ∀ z, f.addr + 4 ≤ z → z < f.addr + f.size + 4 → W z) :
    ∀ z, MetaWord (xs ++ leadOf f.addr ++ [⟨alignedAddr f.addr,
      f.addr + size - alignedAddr f.addr, true⟩] ++ zs) z → W z := by
  obtain ⟨hal, hcase⟩ := alignedAddr_bounds ha
  refine metaWord_of_old (fun d hd => ?_) hW hWf
  simp only [List.mem_append, List.mem_singleton] at hd ⊢
  rcases hd with ((hd | hd) | rfl) | hd
  · exact Or.inl (Or.inl (Or.inl hd))
  · unfold leadOf at hd
    split_ifs at hd with h0
    · cases hd
    · rw [List.mem_singleton.1 hd]
      exact Or.inr ⟨le_refl _, by dsimp only; omega, fun _ => by dsimp only; omega⟩
  · exact Or.inr ⟨by dsimp only; omega, by dsimp only; omega, fun hu => by cases hu⟩
  · exact Or.inl (Or.inr hd)

/-- The final assertions hold. -/
theorem wp_alignedChecks {Zp : ℕ → Prop} (hA : Arena h (xs ++ [c] ++ zs) fl Zp Zf)
    (hused : c.used = true) (hle : nb ≤ c.size) (hal : (c.addr + 8) % 4096 = 0)
    {Q : ℕ → Heap → Prop} (hQ : Q (c.addr + 8) h) :
    Wp (Allowed h.head W U S M) err (do
      let s ← chunksize env c.addr
      hassert (decide (nb ≤ s)) "chunksize(chunk) >= nb"
      hassert (decide (listOf c.addr % pageSize = 0)) "((size_t)mem % mm::PAGE_SIZE) == 0"
      let b ← cinuse env c.addr
      hassert b "cinuse(chunk)"
      return listOf c.addr) Q h := by
  have hc : c ∈ xs ++ [c] ++ zs := by simp
  have hcb := hA.mem_bounds hc
  have hs := hA.listed.sane
  have hshown := hA.tagged.shown c hc
  rw [show listOf c.addr = c.addr + 8 from Word32.add_eq (by omega)]
  refine .bind (wp_chunksize hs hcb.1 (by omega) ?_)
  rw [hshown.1]
  refine .bind (wp_hassert (decide_eq_true hle) (.bind (wp_hassert (decide_eq_true hal) ?_)))
  refine .bind (wp_cinuse hs hcb.1 (by omega) ?_)
  rw [hshown.2]
  exact .bind (wp_hassert hused (.pure hQ))

/-- **`Heap::palignedAlloc`.** -/
theorem wp_palignedAlloc (hA : Wf h cs fl) {n : ℕ} (hn : n ≤ 4294963172)
    (hreq : request2size n = nb) (hWc : ∀ z, MetaWord cs z → W z)
    (hW : ∀ e xs f ys, Serves env h cs fl (nb + 4112) e xs f ys →
      ∀ z, MetaWord (xs ++ [f] ++ ys) z → W z)
    (herr : fitFrom h.mem (nb + 4112) fl = [] → ¬ Grows env h (nb + 4112) → err)
    (hM : fitFrom h.mem (nb + 4112) fl = [] → Wraps env h (nb + 4112) → M)
    (hspill : ∀ e xs f ys, Serves env h cs fl (nb + 4112) e xs f ys → ¬ nb + 4112 + 16 ≤ f.size →
      f.addr + f.size = e → (env.ext (e / 4096) = false → err) ∧ (env.ext (e / 4096) = true → S e))
    (hU : ∀ e xs f ys, Serves env h cs fl (nb + 4112) e xs f ys →
      alignedAddr f.addr ≠ f.addr + 4104 → f.addr + f.size = e →
      U (trimEnd (alignedAddr f.addr + nb)) (e - trimEnd (alignedAddr f.addr + nb)))
    {Q : ℕ → Heap → Prop}
    (hQ : ∀ e xs f ys h' fl', Serves env h cs fl (nb + 4112) e xs f ys →
      (¬ nb + 4112 + 16 ≤ f.size → f.addr + f.size = e → env.ext (e / 4096) = true) →
      Arena h' (xs ++ (alignedLayout f nb e).1 ++ ys) fl'
        (fun z => z = alignedAddr f.addr ∧ StalePin (grown env h e).mem f.addr)
        (alignedStale f nb) →
      h'.endAddr = (alignedLayout f nb e).2 → h'.head = h.head →
      (StalePin (grown env h e).mem f.addr → h'.mem.read32 (alignedAddr f.addr + 4) % 2 = 1) →
      (BySize h.mem fl → BySize h'.mem fl') → Q (alignedAddr f.addr + 8) h') :
    Wp (Allowed h.head W U S M) err (palignedAlloc env n) Q h := by
  obtain ⟨h16, h8, _, _, _⟩ := request2size_bounds (show n ≤ 4294967284 by omega)
  obtain ⟨hreq1, hreq2, hreq3⟩ := request2size_aligned hn
  rw [hreq] at h16 h8 hreq1 hreq2 hreq3
  unfold palignedAlloc palignedAllocUnlocked
  dsimp only
  rw [hreq, hreq1]
  refine .bind (wp_alloc hA hreq2 (by omega) (by omega) hreq3 hWc hW herr hM hspill ?_)
  intro e xs f ys h₁ fl₁ hserve hext hA₁ he₁ hh₁ hwords₁ hord₁
  obtain ⟨hlo, hf8, hle, hs8, hfe, _, he4, _, hmax, hfree⟩ := hserve.bounds hA (by omega)
  obtain ⟨hbefore, hafter⟩ := hserve.used_around hA
  obtain ⟨hal, hcase⟩ := alignedAddr_bounds hf8
  obtain ⟨ht1, ht2, ht3⟩ := taken_bounds hle
  have hWf : ∀ z, f.addr + 4 ≤ z → z < f.addr + f.size + 4 → W z := fun z h1 h2 =>
    hW _ _ _ _ hserve z (Or.inr ⟨f, by simp, hfree, h1, h2⟩)
  have hWcv : ∀ z, MetaWord (xs ++ carve f (nb + 4112) ++ ys) z → W z :=
    metaWord_carve hfree (by omega) hle (hW _ _ _ _ hserve)
  -- the word at the page boundary is the one that was there before
  have hstale : StalePin h₁.mem f.addr ↔ StalePin (grown env h e).mem f.addr := by
    unfold StalePin
    refine and_congr_right fun hne => ?_
    rw [hwords₁ _ (by omega) (by omega) (by omega)]
  have hsp : f.addr + taken f (nb + 4112) = h₁.endAddr →
      (env.ext (h₁.endAddr / 4096) = false → err) ∧
        (env.ext (h₁.endAddr / 4096) = true → S h₁.endAddr) := by
    intro htop
    rw [he₁] at htop ⊢
    exact hspill _ _ _ _ hserve (by omega) (by omega)
  have hsplit : xs ++ carve f (nb + 4112) ++ ys = xs ++ [⟨f.addr, taken f (nb + 4112), true⟩] ++
      ((restOf f (nb + 4112)).toList ++ ys) := by
    rw [carve_eq]
    simp
  rw [hsplit] at hA₁ hWcv
  rw [if_neg (by omega), ← hh₁]
  refine .bind (wp_skipLead (c := ⟨f.addr, taken f (nb + 4112), true⟩) hA₁ rfl hbefore
    (by dsimp only; omega) hWcv (fun z h1 h2 => hWf z (by dsimp only at h1; omega)
      (by dsimp only at h2; omega)) hsp ?_)
  intro h₂ fl₂ hA₂ he₂ hh₂ hpin₂ hord₂
  dsimp only at hA₂ hpin₂ ⊢
  rw [hstale] at hA₂
  have hA₂' : Arena h₂ (xs ++ leadOf f.addr ++ [⟨alignedAddr f.addr,
      f.addr + taken f (nb + 4112) - alignedAddr f.addr, true⟩] ++
      ((restOf f (nb + 4112)).toList ++ ys)) fl₂
      (fun z => z = alignedAddr f.addr ∧ StalePin (grown env h e).mem f.addr)
      (staleFoot f (nb + 4112)) := by
    simpa only [List.append_assoc] using hA₂
  have hpinbit : ∀ w, w % 2 = h₂.mem.read32 (alignedAddr f.addr + 4) % 2 →
      StalePin (grown env h e).mem f.addr → w % 2 = 1 := fun w hw hst => by
    have := (hstale.2 hst).2
    omega
  have he₂' : h₂.endAddr = e := he₂.trans he₁
  have hW₂ := metaWord_lead (f := f) hf8 (by omega) hWcv hWf
  rw [← hh₂]
  by_cases hlong : alignedAddr f.addr = f.addr + 4104
  · -- the lead takes a page more and nothing is left to give back
    refine .bind (wp_splitTail_none hA₂' (by omega) (by dsimp only; omega) ?_)
    refine wp_alignedChecks hA₂' rfl (by dsimp only; omega) hal ?_
    have hlay : alignedLayout f nb e = (leadOf f.addr ++ [⟨alignedAddr f.addr,
        f.addr + taken f (nb + 4112) - alignedAddr f.addr, true⟩] ++
        (restOf f (nb + 4112)).toList, e) := if_pos hlong
    refine hQ e xs f ys h₂ fl₂ hserve hext ?_ ?_ (hh₂.trans hh₁) (hpinbit _ rfl)
      fun hb => hord₂ (hord₁ hb)
    · rw [hlay]
      have hA₃ : Arena h₂ (xs ++ leadOf f.addr ++ [⟨alignedAddr f.addr,
          f.addr + taken f (nb + 4112) - alignedAddr f.addr, true⟩] ++
          ((restOf f (nb + 4112)).toList ++ ys)) fl₂
          (fun z => z = alignedAddr f.addr ∧ StalePin (grown env h e).mem f.addr)
          (alignedStale f nb) := hA₂'.weaken (fun _ _ h => h) fun _ _ h => ⟨hlong, h⟩
      simpa only [List.append_assoc] using hA₃
    · rw [hlay]
      exact he₂'
  · -- the tail runs to the end of the hole
    have htail : tailOf (alignedAddr f.addr + nb)
        (f.addr + taken f (nb + 4112) - alignedAddr f.addr - nb) (restOf f (nb + 4112)) =
        ⟨alignedAddr f.addr + nb, f.addr + f.size - (alignedAddr f.addr + nb), false⟩ :=
      tailOf_rest (by omega)
    have hlay : alignedLayout f nb e = (leadOf f.addr ++ [⟨alignedAddr f.addr, nb, true⟩] ++
        (trim ⟨alignedAddr f.addr + nb, f.addr + f.size - (alignedAddr f.addr + nb), false⟩ e).1,
        (trim ⟨alignedAddr f.addr + nb, f.addr + f.size - (alignedAddr f.addr + nb), false⟩ e).2) :=
      if_neg hlong
    refine .bind (wp_splitTail (c := ⟨alignedAddr f.addr,
      f.addr + taken f (nb + 4112) - alignedAddr f.addr, true⟩) hA₂' rfl h16 h8
      (by dsimp only; omega) (fun z hz => hz.1) (fun hz => ?_) (fun y hy => ?_)
      (fun hR y hy hya => ?_) hW₂ (fun z h1 h2 => hWf z ?_ ?_) ?_ ?_ ?_)
    · have := hz.2
      dsimp only at this
      omega
    · unfold restOf at hy
      split_ifs at hy
      · cases hy
        rfl
      · cases hy
    · refine hafter y hy (hya.trans ?_)
      have htk : taken f (nb + 4112) = f.size := by
        unfold restOf at hR
        unfold taken
        split_ifs at hR with hfit
        exact if_neg hfit
      dsimp only
      omega
    · dsimp only at h1
      omega
    · dsimp only at h2
      omega
    · dsimp only
      intro htop
      rw [he₂] at htop ⊢
      exact hsp (by omega)
    · dsimp only
      rintro E rfl htop
      rw [htail] at htop ⊢
      dsimp only at htop ⊢
      rw [he₂'] at htop ⊢
      exact hU _ _ _ _ hserve hlong (by omega)
    · dsimp only
      rintro h₃ fl₃ E rfl hA₃ he₃ hh₃ hpin₃ hord₃
      rw [htail, he₂'] at hA₃ he₃
      rw [← hh₃]
      have hA₃' : Arena h₃ (xs ++ leadOf f.addr ++ [⟨alignedAddr f.addr, nb, true⟩] ++
          ((trim ⟨alignedAddr f.addr + nb, f.addr + f.size - (alignedAddr f.addr + nb), false⟩ e).1
            ++ ys)) fl₃ (fun z => z = alignedAddr f.addr ∧ StalePin (grown env h e).mem f.addr)
          (alignedStale f nb) := by
        rw [← List.append_assoc]
        refine hA₃.weaken (fun _ _ h => h) fun _ _ h => absurd h.1.2 ?_
        have := h.2
        dsimp only at this
        omega
      refine wp_alignedChecks hA₃' rfl (le_refl nb) hal ?_
      refine hQ e xs f ys h₃ fl₃ hserve hext ?_ ?_ (hh₃.trans (hh₂.trans hh₁)) (hpinbit _ hpin₃)
        fun hb => hord₃ (hord₂ (hord₁ hb))
      · rw [hlay]
        simpa only [List.append_assoc] using hA₃'
      · rw [hlay]
        exact he₃

end

end Heap

end Ospp
