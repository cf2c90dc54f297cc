import Mathlib.Data.List.TakeWhile
import Ospp.Mm.HeapAlloc

/-!
# Growing the heap

The branch of `alloc_unlocked` without a hole. The end computed in `expand_unlocked` may wrap and
then passes its checks: with frames for all pages up to there the whole address space behind the
heap is mapped anew (`Wraps`). A growth that returns has not wrapped. After it the heap has one free
chunk more, or a larger last one, and the request fits into it.
-/

namespace Ospp

open Cmd

namespace Heap

/-- The end of the heap after a growth by `nb`. -/
def grownEnd (e nb : ℕ) : ℕ := (e + nb + 4095) / 4096 * 4096

/-- The window has room for a growth by `nb`, and the physical memory too. -/
def Grows (env : HeapEnv) (h : Heap) (nb : ℕ) : Prop :=
  grownEnd h.endAddr nb ≤ 33554432 ∧ env.frames ((h.endAddr - 16777216) / 4096)
    ((grownEnd h.endAddr nb - h.endAddr) / 4096) = true

instance (env : HeapEnv) (h : Heap) (nb : ℕ) : Decidable (Grows env h nb) :=
  inferInstanceAs (Decidable (_ ∧ _))

/-- The size after a growth by `nb` does not wrap, the end behind it does, and there are frames for
all pages between. -/
def Wraps (env : HeapEnv) (h : Heap) (nb : ℕ) : Prop :=
  h.endAddr - 16777216 + nb < 4294967296 ∧ 4294967296 ≤ grownEnd h.endAddr nb ∧
    env.frames ((h.endAddr - 16777216) / 4096)
      ((grownEnd h.endAddr nb - h.endAddr) / 4096) = true

instance (env : HeapEnv) (h : Heap) (nb : ℕ) : Decidable (Wraps env h nb) :=
  inferInstanceAs (Decidable (_ ∧ _ ∧ _))

/-- The heap with new pages behind it. -/
def grown (env : HeapEnv) (h : Heap) (e : ℕ) : Heap :=
  { h with endAddr := e
           mem := fun a => if h.endAddr ≤ a ∧ a < e then env.fill a else h.mem a }

section

variable {env : HeapEnv} {W : ℕ → Prop} {U : ℕ → ℕ → Prop} {S : ℕ → Prop} {M err : Prop} {h h' : Heap}
  {xs ys cs : List Chunk} {fl fl' : List ℕ} {f : Chunk} {nb e : ℕ}

@[simp] theorem grown_endAddr : (grown env h e).endAddr = e := rfl

@[simp] theorem grown_head : (grown env h e).head = h.head := rfl

theorem read_grown {z : ℕ} (hz : z + 4 ≤ h.endAddr) (he : h.endAddr ≤ 33554432) :
    (grown env h e).mem.read32 z = h.mem.read32 z := by
  apply Mem.read32_congr
  intro k hk
  unfold Mem.read8 grown
  dsimp only
  rw [if_neg (by omega)]

theorem grownEnd_bounds (he : h.endAddr % 4096 = 0) (hnb : 0 < nb) :
    grownEnd h.endAddr nb % 4096 = 0 ∧ h.endAddr + nb ≤ grownEnd h.endAddr nb ∧
      h.endAddr + 4096 ≤ grownEnd h.endAddr nb := by
  unfold grownEnd
  omega

theorem Sane.grown (hs : h.Sane) (hnb : 0 < nb) (hg : Grows env h nb) :
    (grown env h (grownEnd h.endAddr nb)).Sane := by
  have hb := hs.bounds
  have := grownEnd_bounds hb.1 hnb
  have := hg.1
  refine ⟨hs.head_pos, hs.head_aligned, hs.head_low, ?_⟩
  unfold HeapEndOk heapStart heapMinSize heapMaxAddr
  exact ⟨by rw [grown_endAddr]; omega, by rw [grown_endAddr]; omega, by rw [grown_endAddr]; omega⟩

/-- With room in the window `expand_unlocked` computes the end that was meant. -/
theorem expandEnd_of_room (hs : h.Sane) (hnb : 0 < nb) (hroom : grownEnd h.endAddr nb ≤ 33554432) :
    expandEnd h.endAddr (Word32.add (Word32.sub h.endAddr heapStart) nb) =
      .ok (grownEnd h.endAddr nb) := by
  have hb := hs.bounds
  have hg := grownEnd_bounds hb.1 hnb
  have hend : Word32.add heapStart ((h.endAddr - 16777216 + nb + 4095) / 4096 * 4096) =
      grownEnd h.endAddr nb := by
    unfold grownEnd heapStart at *
    rw [Word32.add_eq (by omega)]
    omega
  unfold expandEnd
  rw [show Word32.sub h.endAddr heapStart = h.endAddr - 16777216 from
      Word32.sub_eq (by omega) (by unfold heapStart; omega), Word32.add_eq (by omega),
    alignHeapSize_eq (by omega), decide_eq_true (by omega)]
  dsimp only
  rw [hend, decide_eq_true (show grownEnd h.endAddr nb ≤ heapMaxAddr from hroom)]
  rfl

/-- A size this close to the top of the address space is rounded down to nothing. -/
theorem alignHeapSize_wrap {n : ℕ} (hn : 4294963200 < n) (hlt : n < 4294967296) :
    alignHeapSize n = 0 := by
  unfold alignHeapSize Word32.alignUp pageSize
  have hsub : Word32.sub (Word32.add n 4096) 1 = n - 4294963201 := by
    unfold Word32.sub Word32.add
    omega
  rw [hsub, show Word32.sub 4096 1 = 2 ^ 12 - 1 by decide,
    Word32.and_compl_two_pow (by omega) (by norm_num)]
  omega

/-- Where `expand_unlocked` gets past its checks it has computed the end that was meant, or that end
has wrapped. -/
theorem expandEnd_cases (hs : h.Sane) (hnb : 0 < nb) (hlt : nb < 4294967296)
    (hok : expandEnd h.endAddr (Word32.add (Word32.sub h.endAddr heapStart) nb) = .ok e) :
    (e = grownEnd h.endAddr nb ∧ e ≤ 33554432) ∨ (h.endAddr - 16777216 + nb < 4294967296 ∧
      4294967296 ≤ grownEnd h.endAddr nb ∧ e = grownEnd h.endAddr nb - 4294967296) := by
  have hb := hs.bounds
  have hsub : Word32.sub h.endAddr heapStart = h.endAddr - 16777216 :=
    Word32.sub_eq (by omega) (by unfold heapStart; omega)
  unfold expandEnd at hok
  rw [K.bind_eq_ok] at hok
  obtain ⟨_, h1, hok⟩ := hok
  rw [kassert_eq_ok, decide_eq_true_eq, hsub] at h1
  dsimp only at hok
  rw [K.bind_eq_ok] at hok
  obtain ⟨_, h2, hok⟩ := hok
  rw [kassert_eq_ok, decide_eq_true_eq] at h2
  -- a sum that wraps is below the old size
  have hadd : Word32.add (h.endAddr - 16777216) nb = h.endAddr - 16777216 + nb := by
    unfold Word32.add at h1 ⊢
    omega
  rw [hsub, hadd] at h2 hok
  rw [hadd] at h1
  have hn : h.endAddr - 16777216 + nb < 4294967296 := by
    rw [← hadd]
    exact Word32.add_lt _ _
  cases hok
  unfold heapMaxAddr at h2
  unfold heapStart at h2 ⊢
  by_cases hbig : h.endAddr - 16777216 + nb ≤ 4294963200
  · rw [alignHeapSize_eq hbig] at h2 ⊢
    unfold grownEnd Word32.add at *
    omega
  · rw [alignHeapSize_wrap (by omega) hn] at h2 ⊢
    right
    unfold grownEnd Word32.add
    omega

/-- **`expand_unlocked`**, as `alloc_unlocked` calls it. -/
theorem wp_expandUnlocked (hs : h.Sane) (hnb : 0 < nb) (hlt : nb < 4294967296)
    (herr : ¬ Grows env h nb → err) (hM : Wraps env h nb → M) {Q : Unit → Heap → Prop}
    (hQ : Grows env h nb → Q () (grown env h (grownEnd h.endAddr nb))) :
    Wp (Allowed h.head W U S M) err
      (expandUnlocked env (Word32.add (Word32.sub h.endAddr heapStart) nb)) Q h := by
  have hb := hs.bounds
  have hg := grownEnd_bounds hb.1 hnb
  have hused : Word32.sub h.endAddr heapStart = h.endAddr - 16777216 :=
    Word32.sub_eq (by omega) (by unfold heapStart; omega)
  unfold expandUnlocked
  refine .bind (.get (.bind (.lift (fun e he => ?_) fun x hx => herr fun hg => ?_)))
  · rcases expandEnd_cases hs hnb hlt he with ⟨rfl, hroom⟩ | ⟨hn, hwrap, hend⟩
    · have hsize : Word32.sub (grownEnd h.endAddr nb) h.endAddr =
        grownEnd h.endAddr nb - h.endAddr := Word32.sub_eq (by omega) (by omega)
      dsimp only
      rw [hsize, if_neg (by omega), hused,
        if_neg (show ¬ grownEnd h.endAddr nb < h.endAddr by omega)]
      refine .ite (fun hfr => .modify (hQ ⟨hroom, hfr⟩)) fun hfr => .fail (herr fun hg => ?_)
      exact hfr hg.2
    · have hle : grownEnd h.endAddr nb ≤ 4311744512 := by
        unfold grownEnd
        omega
      have hsize : Word32.sub e h.endAddr = grownEnd h.endAddr nb - h.endAddr := by
        unfold Word32.sub
        omega
      have hnot : ¬ Grows env h nb := fun hg => by
        have := hg.1
        omega
      dsimp only
      rw [hsize, if_neg (by omega), hused,
        if_pos (show e < h.endAddr by omega)]
      exact .ite (fun hfr => .bind (.emit (hM ⟨hn, hwrap, hfr⟩) (.fail (herr hnot))))
        fun _ => .fail (herr hnot)
  · rw [expandEnd_of_room hs hnb hg.1] at hx
    cases hx

/-! ## The top chunk -/

/-- The largest link address of a list, or `tmp` if that is larger. -/
def highest (tmp : ℕ) (fl : List ℕ) : ℕ := fl.foldl (fun t a => if t < a + 8 then a + 8 else t) tmp

theorem highest_spec : ∀ (fl : List ℕ) (tmp : ℕ), tmp ≤ highest tmp fl ∧
    (∀ b ∈ fl, b + 8 ≤ highest tmp fl) ∧ (highest tmp fl = tmp ∨ ∃ a ∈ fl, highest tmp fl = a + 8) := by
  intro fl
  induction fl with
  | nil => exact fun tmp => ⟨le_refl tmp, fun b hb => (by cases hb), Or.inl rfl⟩
  | cons a fl ih =>
    intro tmp
    obtain ⟨h1, h2, h3⟩ := ih (if tmp < a + 8 then a + 8 else tmp)
    have hstep : highest tmp (a :: fl) = highest (if tmp < a + 8 then a + 8 else tmp) fl := rfl
    rw [hstep]
    generalize highest (if tmp < a + 8 then a + 8 else tmp) fl = r at h1 h2 h3
    refine ⟨?_, fun b hb => ?_, ?_⟩
    · split_ifs at h1 <;> omega
    · rcases List.mem_cons.1 hb with rfl | hb
      · split_ifs at h1 <;> omega
      · exact h2 b hb
    · rcases h3 with h3 | ⟨b, hb, h3⟩
      · split_ifs at h3
        · exact Or.inr ⟨a, List.mem_cons_self .., h3⟩
        · exact Or.inl h3
      · exact Or.inr ⟨b, List.mem_cons_of_mem _ hb, h3⟩

theorem wp_highestLink {Q : ℕ → Heap → Prop} :
    ∀ {l₂ : List ℕ} (l₁ : List ℕ) {fuel tmp : ℕ}, Listed h (l₁ ++ l₂) → l₂.length < fuel →
      Q (highest tmp l₂) h →
      Wp (Allowed h.head W U S M) err (highestLink env fuel (nodeOf h l₂) tmp) Q h := by
  intro l₂
  induction l₂ with
  | nil =>
    intro l₁ fuel tmp hl hfuel hQ
    obtain ⟨fuel, rfl⟩ : ∃ n, fuel = n + 1 := ⟨fuel - 1, by simp at hfuel; omega⟩
    unfold highestLink
    refine .bind (.get ?_)
    rw [if_pos nodeOf_nil]
    exact .pure hQ
  | cons a l₂ ih =>
    intro l₁ fuel tmp hl hfuel hQ
    obtain ⟨fuel, rfl⟩ : ∃ n, fuel = n + 1 := ⟨fuel - 1, by simp at hfuel; omega⟩
    have hs := hl.sane
    have hra := hl.range a (by simp)
    have hlow := hs.head_low
    have hl' : Listed h ((l₁ ++ [a]) ++ l₂) := by
      rw [List.append_assoc]
      exact hl
    have hnext := hl'.links.1
    rw [nodeBefore_concat] at hnext
    unfold highestLink
    refine .bind (.get ?_)
    rw [nodeOf_cons, if_neg (by omega)]
    refine .bind (wp_load hs (Or.inl ⟨by unfold heapStart; omega, by omega⟩) ?_)
    rw [hnext]
    exact ih _ hl' (by simp at hfuel; omega) hQ

/-- The list does not notice new pages. -/
theorem Listed.grown (hl : Listed h fl) (hnb : 0 < nb) (hg : Grows env h nb) :
    Listed (grown env h (grownEnd h.endAddr nb)) fl := by
  have hb := hl.sane.bounds
  have hgb := grownEnd_bounds hb.1 hnb
  refine ⟨hl.sane.grown hnb hg, ?_, hl.nodup, hl.apart, fun a ha => ?_⟩
  · have hread : ∀ u, IsNode h fl u →
        (Heap.grown env h (grownEnd h.endAddr nb)).mem.read32 u = h.mem.read32 u ∧
        (Heap.grown env h (grownEnd h.endAddr nb)).mem.read32 (u + 4) =
          h.mem.read32 (u + 4) := by
      intro u hu
      have hlow := hl.sane.head_low
      rcases hu with rfl | ⟨a, ha, rfl⟩
      · exact ⟨read_grown (by omega) hb.2.2, read_grown (by omega) hb.2.2⟩
      · have := hl.range a ha
        exact ⟨read_grown (by omega) hb.2.2, read_grown (by omega) hb.2.2⟩
    exact hl.ring.congr (fun u hu => (hread u (isNode_iff_mem.2 hu)).1)
      fun u hu => (hread u (isNode_iff_mem.2 hu)).2
  · have := hl.range a ha
    exact ⟨this.1, this.2.1, by rw [grown_endAddr]; omega⟩

/-- The chunk `F` ends the heap at `e'`, in the place of a free last chunk of `cs` or behind them. -/
structure Extends (cs : List Chunk) (e e' : ℕ) (xs : List Chunk) (F : Chunk) : Prop where
  free : F.used = false
  ends : F.addr + F.size = e'
  split : (xs = cs ∧ F.addr = e ∧ ∀ t ∈ cs, t.addr + t.size = e → t.used = true) ∨
    ∃ t, cs = xs ++ [t] ∧ t.used = false ∧ F.addr = t.addr

/-- The chunks that the top chunk takes the place of. -/
theorem Extends.exists_mid {e' : ℕ} (hx : Extends cs e e' xs f) :
    ∃ mid, cs = xs ++ mid ∧ (∀ t ∈ mid, t.addr = f.addr ∧ t.used = false) ∧
      (mid = [] → f.addr = e ∧ ∀ t ∈ cs, t.addr + t.size = e → t.used = true) := by
  rcases hx.split with ⟨h1, h2, h3⟩ | ⟨t, h1, h2, h3⟩
  · exact ⟨[], by rw [h1, List.append_nil], fun t ht => (by cases ht), fun _ => ⟨h2, h3⟩⟩
  · refine ⟨[t], h1, fun u hu => ?_, fun h => (by cases h)⟩
    rw [List.mem_singleton.1 hu]
    exact ⟨h3.symm, h2⟩

theorem Extends.tiles {e' : ℕ} (hx : Extends cs e e' xs f) (ht : Tiles 16777216 cs e) :
    Tiles 16777216 xs f.addr ∧ 16777216 ≤ f.addr ∧ f.addr ≤ e ∧ f.addr % 8 = e % 8 := by
  have hle := ht.le
  rcases hx.split with ⟨rfl, h2, _⟩ | ⟨t, rfl, _, h3⟩
  · rw [h2]
    exact ⟨ht, hle, le_refl _, rfl⟩
  · have hm := ht.mem (c := t) (by simp)
    obtain ⟨h4, _, _, h5⟩ := ht.split
    have h6 : t.addr + t.size = e := h5
    rw [h3]
    exact ⟨h4, by omega, by omega, by omega⟩

/-- The chunk before the top chunk is in use. -/
theorem Extends.used_before {e' : ℕ} (hx : Extends cs e e' xs f) (hn : NoAdjacent cs) {x : Chunk}
    (hm : x ∈ xs) (hxf : x.addr + x.size = f.addr) : x.used = true := by
  rcases hx.split with ⟨rfl, h2, h3⟩ | ⟨t, rfl, h2, h3⟩
  · exact h3 x hm (by omega)
  · have h4 := hn x (by simp [hm]) t (by simp) (by omega)
    rw [h2] at h4
    exact h4.resolve_right fun h => by cases h

/-- A free chunk gets its header and joins the list. -/
theorem wp_enterChunk (hl : Listed h fl) {a size : ℕ} (ha : a % 8 = 0) (hlo : 16777216 ≤ a)
    (hhi : a + 16 ≤ h.endAddr) (hsize : size % 8 = 0) (hlt : size ≤ 33554432)
    (hout : ∀ x ∈ fl, x + 16 ≤ a ∨ a + 16 ≤ x) (hWh : W (a + 4))
    (hW : ∀ x ∈ a :: fl, W (x + 8) ∧ W (x + 12)) {Q : Unit → Heap → Prop}
    (hQ : ∀ h' fl', Listed h' fl' → h'.endAddr = h.endAddr → h'.head = h.head →
      (∀ z, z ∈ fl' ↔ z = a ∨ z ∈ fl) → h'.mem.read32 (a + 4) = size + 1 →
      (∀ z, 16777216 ≤ z → z % 4 = 0 → z < 4294967296 → z ≠ a + 4 → z ≠ a + 8 → z ≠ a + 12 →
        (∀ x ∈ fl, z ≠ x + 8 ∧ z ≠ x + 12) → h'.mem.read32 z = h.mem.read32 z) →
      (BySize h.mem fl → BySize h'.mem fl') → Q () h') :
    Wp (Allowed h.head W U S M) err
      (setSizeAndPinuse env a size >>= fun _ => insertChunk env a) Q h := by
  have hs := hl.sane
  have hb := hs.bounds
  refine .bind (wp_setSizeAndPinuse hs hlo (by omega) hsize hWh ?_)
  have hl' : Listed (h.write (a + 4) (size + 1)) fl := by
    refine hl.write (by omega) (by omega) (not_listWord hs (by omega) fun x hx => ?_)
    have := hout x hx
    omega
  refine wp_insertChunk_words hl' ⟨ha, hlo, hhi, fun x hx => (hout x hx).symm⟩ hW ?_
  intro h' fl' hl'' hend hhead hfl hsame hord
  refine hQ h' fl' hl'' hend hhead hfl ?_ (fun z h1 h2 h3 h4 h5 h6 h7 => ?_)
    fun hb => hord (hl.bySize_write (by omega) (by omega) (fun x hx => ?_) hb)
  · rw [hsame _ (by omega) (by omega) (by omega) fun x hx => ?_]
    · exact read_write_self (by omega)
    · rcases hx with rfl | hx
      · omega
      · have := hout x hx
        omega
  · rw [hsame z h1 h2 h3 fun x hx => ?_, read_write_ne (by omega) h2 h4 (by omega) h3]
    rcases hx with rfl | hx
    · exact ⟨h5, h6⟩
    · exact h7 x hx
  · have := hout x hx
    omega

/-- Writing the header of the top chunk and entering it into the list. -/
theorem wp_placeTop (hA : Wf h cs fl) (hE : Extends cs h.endAddr e xs f)
    (he : h.endAddr + 4096 ≤ e) (hmax : e ≤ 33554432) (he8 : e % 8 = 0) {h₂ : Heap} {fl₂ : List ℕ}
    (hl₂ : Listed h₂ fl₂) (hend₂ : h₂.endAddr = e) (hfl₂ : ∀ z, z ∈ fl₂ ↔ z ∈ fl ∧ z ≠ f.addr)
    (hkeep₂ : ∀ c ∈ xs, h₂.mem.read32 (c.addr + 4) = h.mem.read32 (c.addr + 4) ∧
      h₂.mem.read32 c.addr = h.mem.read32 c.addr)
    (hW : ∀ z, MetaWord (xs ++ [f]) z → W z) {Q : Unit → Heap → Prop}
    (hQ : ∀ h' fl', Wf h' (xs ++ [f]) fl' → h'.endAddr = e → h'.head = h₂.head →
      (∀ z, z % 4 = 0 → f.addr + 16 ≤ z → z + 4 ≤ e → h'.mem.read32 z = h₂.mem.read32 z) →
      (BySize h₂.mem fl₂ → BySize h'.mem fl') → Q () h') :
    Wp (Allowed h₂.head W U S M) err
      (setSizeAndPinuse env f.addr f.size >>= fun _ => insertChunk env f.addr) Q h₂ := by
  have hb := hA.listed.sane.bounds
  have hs₂ := hl₂.sane
  have hends := hE.ends
  obtain ⟨htx, hlo, hle, h8⟩ := hE.tiles hA.tiles
  obtain ⟨mid, hcs, hmid, _⟩ := hE.exists_mid
  have hxcs : ∀ c ∈ xs, c ∈ cs := fun c hc => by rw [hcs]; exact List.mem_append_left _ hc
  -- the listed chunks end before the top chunk starts
  have hbelow : ∀ x ∈ fl₂, x + 16 ≤ f.addr := by
    intro x hx
    obtain ⟨hxfl, hne⟩ := (hfl₂ x).1 hx
    obtain ⟨c, hc, rfl, _⟩ := (hA.free x).1 hxfl
    rw [hcs, List.mem_append] at hc
    rcases hc with hc | hc
    · have := htx.mem hc
      omega
    · exact absurd (hmid c hc).1 hne
  have hWl : ∀ x ∈ f.addr :: fl₂, W (x + 8) ∧ W (x + 12) := by
    intro x hx
    rcases List.mem_cons.1 hx with rfl | hx
    · exact ⟨hW _ (Or.inr ⟨f, by simp, hE.free, by omega, by omega⟩),
        hW _ (Or.inr ⟨f, by simp, hE.free, by omega, by omega⟩)⟩
    · have hlt := hbelow x hx
      obtain ⟨c, hc, rfl, hu⟩ := (hA.free x).1 ((hfl₂ x).1 hx).1
      have hcx : c ∈ xs := by
        rw [hcs, List.mem_append] at hc
        rcases hc with hc | hc
        · exact hc
        · have := (hmid c hc).1
          omega
      have := htx.mem hcx
      exact ⟨hW _ (Or.inr ⟨c, by simp [hcx], hu, by omega, by omega⟩),
        hW _ (Or.inr ⟨c, by simp [hcx], hu, by omega, by omega⟩)⟩
  refine wp_enterChunk hl₂ (by omega) hlo (by omega) (by omega) (by omega)
    (fun x hx => Or.inl (hbelow x hx)) (hW _ (Or.inl ⟨f, by simp, rfl⟩)) hWl ?_
  intro h' fl' hl' hend' hhead' hfl' hhead hread hord
  have hA' : Arena h (xs ++ mid ++ []) fl Nowhere Nowhere := by
    rw [List.append_nil, ← hcs]
    exact hA
  have hkeep : ∀ c ∈ xs, h'.mem.read32 (c.addr + 4) = h.mem.read32 (c.addr + 4) ∧
      h'.mem.read32 c.addr = h.mem.read32 c.addr := by
    intro c hc
    have hcb := htx.mem hc
    obtain ⟨h1, h2⟩ := hkeep₂ c hc
    have hfar : ∀ k, k = 0 ∨ k = 4 → ∀ x ∈ fl₂, c.addr + k ≠ x + 8 ∧ c.addr + k ≠ x + 12 := by
      intro k hk x hx
      have := hA.sep_listed (hxcs c hc) ((hfl₂ x).1 hx).1
      omega
    rw [← h1, ← h2]
    exact ⟨hread _ (by omega) (by omega) (by omega) (by omega) (by omega) (by omega)
        (hfar 4 (Or.inr rfl)),
      hread _ (by omega) (by omega) (by omega) (by omega) (by omega) (by omega)
        (hfar 0 (Or.inl rfl))⟩
  have hpin : hpin h'.mem f.addr = true := hpin_of_header hhead (by omega) rfl
  refine hQ _ fl' ?_ (hend'.trans hend₂) hhead' ?_ hord
  · have hfinal : Arena h' (xs ++ [f] ++ []) fl' Nowhere Nowhere := by
      refine hA'.replaceOne hl' htx (by omega) (by omega) ?_ (fun c hc _ => ?_)
        (fun c hc => by cases hc) ?_ (fun x hx hxf => ?_) (fun _ => hpin) (fun z => ?_)
        (fun _ _ h => h) (fun _ _ h => h)
      · show f.addr + f.size = h'.endAddr
        omega
      · rw [List.append_nil] at hc
        exact hkeep c hc
      · exact shown_of_header hhead (by omega) (by decide) hE.free.symm
      · have hu := hE.used_before hA.apart hx hxf
        rw [hpin, hu]
        exact ⟨fun _ => rfl, fun h => by cases h⟩
      · rw [hfl', hfl₂]
        constructor
        · rintro (h1 | ⟨h1, h2⟩)
          · exact Or.inr ⟨h1, hE.free⟩
          · refine Or.inl ⟨h1, fun d hd hdz => h2 ?_⟩
            rw [← hdz, (hmid d hd).1]
        · rintro (⟨h1, h2⟩ | ⟨h1, _⟩)
          · by_cases hz : z = f.addr
            · exact Or.inl hz
            · exact Or.inr ⟨h1, hz⟩
          · exact Or.inl h1
    rw [List.append_nil] at hfinal
    exact hfinal
  · intro z h1 h2 h3
    refine hread z (by omega) h1 (by omega) (by omega) (by omega) (by omega) fun x hx => ?_
    have := hbelow x hx
    omega

/-- **Finding the top chunk.** -/
theorem wp_topChunk (hA : Wf h cs fl) (hnb : 0 < nb) (hg : Grows env h nb)
    (hW : ∀ x ∈ fl, W (x + 8) ∧ W (x + 12)) {Q : ℕ × ℕ → Heap → Prop}
    (hQ : ∀ h₂ fl₂ xs F, Extends cs h.endAddr (grownEnd h.endAddr nb) xs F → Listed h₂ fl₂ →
      h₂.endAddr = grownEnd h.endAddr nb → h₂.head = h.head →
      (∀ z, z ∈ fl₂ ↔ z ∈ fl ∧ z ≠ F.addr) →
      (∀ c ∈ cs, h₂.mem.read32 (c.addr + 4) = h.mem.read32 (c.addr + 4) ∧
        h₂.mem.read32 c.addr = h.mem.read32 c.addr) →
      (∀ z, z % 4 = 0 → F.addr + 16 ≤ z → z + 4 ≤ grownEnd h.endAddr nb →
        h₂.mem.read32 z = (grown env h (grownEnd h.endAddr nb)).mem.read32 z) →
      (BySize h.mem fl → BySize h₂.mem fl₂) → Q (F.addr, F.size) h₂) :
    Wp (Allowed h.head W U S M) err (topChunk env h.endAddr (highest 0 fl)) Q
      (grown env h (grownEnd h.endAddr nb)) := by
  have hl := hA.listed
  have hb := hl.sane.bounds
  have hgb := grownEnd_bounds hb.1 hnb
  have hmax := hg.1
  have hl₁ := hl.grown hnb hg
  generalize he : grownEnd h.endAddr nb = e at *
  have hs₁ := hl₁.sane
  have hkeep₁ : ∀ c ∈ cs, (grown env h e).mem.read32 (c.addr + 4) = h.mem.read32 (c.addr + 4) ∧
      (grown env h e).mem.read32 c.addr = h.mem.read32 c.addr := by
    intro c hc
    have := hA.mem_bounds hc
    exact ⟨read_grown (by omega) hb.2.2, read_grown (by omega) hb.2.2⟩
  have hord₁ : BySize h.mem fl → BySize (grown env h e).mem fl := fun hb' =>
    hb'.congr fun x hx => by
      have := hl.range x hx
      unfold hsize
      rw [read_grown (by omega) hb.2.2]
  have hsub : Word32.sub e h.endAddr = e - h.endAddr := Word32.sub_eq (by omega) (by omega)
  -- a chunk of its own, when no free chunk reaches the old end
  have hfresh : (∀ t ∈ cs, t.addr + t.size = h.endAddr → t.used = true) →
      Q (h.endAddr, Word32.sub e h.endAddr) (grown env h e) := by
    intro hlast
    rw [hsub]
    refine hQ (grown env h e) fl cs ⟨h.endAddr, e - h.endAddr, false⟩
      ⟨rfl, by dsimp only; omega, Or.inl ⟨rfl, rfl, hlast⟩⟩ hl₁ rfl rfl (fun z => ?_) hkeep₁
      (fun _ _ _ _ => rfl) hord₁
    refine ⟨fun hz => ⟨hz, ?_⟩, fun hz => hz.1⟩
    have := hl.range z hz
    dsimp only
    omega
  obtain ⟨_, hhigh, hsome⟩ := highest_spec fl 0
  unfold topChunk
  refine .bind (.get ?_)
  dsimp only
  rcases hsome with h0 | ⟨a, ha, hta⟩
  · rw [if_pos h0]
    refine .pure (hfresh fun t ht hte => ?_)
    by_contra hu
    have := hhigh t.addr ((hA.free _).2 ⟨t, ht, rfl, by simpa using hu⟩)
    omega
  · obtain ⟨c, hc, rfl, hfree⟩ := (hA.free a).1 ha
    have hcb := hA.mem_bounds hc
    have hshown := hA.tagged.shown c hc
    have hcsize : hsize (grown env h e).mem c.addr = c.size := by
      unfold hsize
      rw [(hkeep₁ c hc).1]
      exact hshown.1
    have hcused : hused (grown env h e).mem c.addr = false := by
      unfold hused
      rw [(hkeep₁ c hc).1, ← hfree]
      exact hshown.2
    rw [if_neg (by omega), hta, show listEntry (c.addr + 8) = c.addr from
      (Word32.sub_eq (show c.addr + 8 < 4294967296 by omega) (by omega)).trans (by omega)]
    refine .bind (wp_pinuse (h := grown env h e) hs₁ hcb.1 (by rw [grown_endAddr]; omega) ?_)
    refine .bind (wp_cinuse (h := grown env h e) hs₁ hcb.1 (by rw [grown_endAddr]; omega) ?_)
    rw [hcused, if_neg (by simp)]
    refine .bind (wp_chunksize (h := grown env h e) hs₁ hcb.1 (by rw [grown_endAddr]; omega) ?_)
    rw [hcsize, Word32.add_eq (show c.addr + c.size < 4294967296 by omega)]
    by_cases htop : c.addr + c.size = h.endAddr
    · rw [if_neg (not_not_intro htop)]
      obtain ⟨xs, ys, rfl⟩ := List.append_of_mem hc
      -- nothing follows the chunk that ends the heap
      obtain rfl : ys = [] := by
        cases ys with
        | nil => rfl
        | cons y ys =>
          obtain ⟨_, _, _, h5⟩ := hA.tiles.split
          have := h5.mem (List.mem_cons_self ..)
          omega
      refine .bind (wp_removeChunk_words (h := grown env h e) hl₁ ha hW ?_)
      intro h₂ fl₂ hl₂ he₂ hh₂ hfl₂ hsame hord₂
      rw [grown_endAddr, show Word32.sub e c.addr = e - c.addr from
        Word32.sub_eq (by omega) (by omega)]
      have hsep : ∀ d ∈ xs ++ [c], ∀ x ∈ fl₂, ∀ k, k = 0 ∨ k = 4 →
          d.addr + k ≠ x + 8 ∧ d.addr + k ≠ x + 12 := by
        intro d hd x hx k hk
        have := hA.sep_listed hd ((hfl₂ x).1 hx).1
        have := hA.mem_bounds hd
        omega
      refine .pure (hQ h₂ fl₂ xs ⟨c.addr, e - c.addr, false⟩ ⟨rfl, by dsimp only; omega,
        Or.inr ⟨c, rfl, hfree, rfl⟩⟩ hl₂ he₂ hh₂ hfl₂ (fun d hd => ?_) (fun z h1 h2 h3 => ?_)
        fun hb' => hord₂ (hord₁ hb'))
      · have hdb := hA.mem_bounds hd
        obtain ⟨h1, h2⟩ := hkeep₁ d hd
        rw [← h1, ← h2]
        exact ⟨hsame _ (by omega) (by omega) (by omega) fun x hx => hsep d hd x hx 4 (Or.inr rfl),
          hsame _ (by omega) (by omega) (by omega) fun x hx => hsep d hd x hx 0 (Or.inl rfl)⟩
      · dsimp only at h2
        refine hsame z (by omega) h1 (by omega) fun x hx => ?_
        have := hA.sep_listed hc ((hfl₂ x).1 hx).1
        have := ((hfl₂ x).1 hx).2
        have := hl.range x ((hfl₂ x).1 hx).1
        omega
    · rw [if_pos htop]
      refine .pure (hfresh fun t ht hte => ?_)
      -- the highest free chunk would be the last one
      by_contra hu
      have htfl := (hA.free t.addr).2 ⟨t, ht, rfl, by simpa using hu⟩
      have := hhigh t.addr htfl
      have htb := hA.mem_bounds ht
      rcases hA.tiles.sep ht hc with rfl | h1
      · exact htop hte
      · omega

/-- **Growing.** -/
theorem wp_growTop (hA : Wf h cs fl) (hnb : 0 < nb) (hlt : nb < 4294967296)
    (hW : Grows env h nb → ∀ xs F, Extends cs h.endAddr (grownEnd h.endAddr nb) xs F →
      ∀ z, MetaWord (xs ++ [F]) z → W z)
    (hWl : ∀ x ∈ fl, W (x + 8) ∧ W (x + 12)) (herr : ¬ Grows env h nb → err)
    (hM : Wraps env h nb → M) {Q : Unit → Heap → Prop}
    (hQ : Grows env h nb → ∀ h' fl' xs F, Extends cs h.endAddr (grownEnd h.endAddr nb) xs F →
      Wf h' (xs ++ [F]) fl' → h'.endAddr = grownEnd h.endAddr nb → h'.head = h.head →
      (∀ z, z % 4 = 0 → F.addr + 16 ≤ z → z + 4 ≤ grownEnd h.endAddr nb →
        h'.mem.read32 z = (grown env h (grownEnd h.endAddr nb)).mem.read32 z) →
      (BySize h.mem fl → BySize h'.mem fl') → Q () h') :
    Wp (Allowed h.head W U S M) err (growTop env nb) Q h := by
  have hs := hA.listed.sane
  have hgb := grownEnd_bounds hs.bounds.1 hnb
  unfold growTop
  refine .bind (.get ?_)
  dsimp only
  refine .bind (wp_expandUnlocked hs hnb hlt herr hM fun hg => ?_)
  have hl₁ := hA.listed.grown hnb hg
  -- the loop finds the highest link, also when there is none
  have hrest : Wp (Allowed h.head W U S M) err
      (topChunk env h.endAddr (highest 0 fl) >>= fun r =>
        setSizeAndPinuse env r.1 r.2 >>= fun _ => insertChunk env r.1) Q
      (grown env h (grownEnd h.endAddr nb)) := by
    refine .bind (wp_topChunk hA hnb hg hWl ?_)
    intro h₂ fl₂ xs F hE hl₂ he₂ hh₂ hfl₂ hkeep₂ hwords₂ hord₂
    obtain ⟨mid, hcs, _⟩ := hE.exists_mid
    rw [← hh₂]
    refine wp_placeTop hA hE (by omega) hg.1 (by omega) hl₂ he₂ hfl₂
      (fun c hc => hkeep₂ c (by rw [hcs]; exact List.mem_append_left _ hc)) (hW hg xs F hE) ?_
    intro h' fl' hA' he' hh' hwords hord
    exact hQ hg h' fl' xs F hE hA' he' (hh'.trans hh₂) (fun z h1 h2 h3 =>
      (hwords z h1 h2 h3).trans (hwords₂ z h1 h2 h3)) fun hb => hord (hord₂ hb)
  refine .bind (wp_listEmpty hl₁ (.ite (fun h0 => ?_) fun _ => ?_))
  · rw [List.isEmpty_iff.1 h0] at hrest
    exact .bind (.pure hrest)
  · exact .bind (wp_loadHead hl₁ (.bind (wp_highestLink [] hl₁ hl₁.length_lt hrest)))

/-! ## Allocating -/

/-- The chunk that `alloc_unlocked` takes for `nb` bytes, between those before and after it, in a
heap that then ends at the given address: the first of the list that fits, or the top chunk of the
grown heap. -/
inductive Serves (env : HeapEnv) (h : Heap) (cs : List Chunk) (fl : List ℕ) (nb : ℕ) :
    ℕ → List Chunk → Chunk → List Chunk → Prop
  | hole {xs ys : List Chunk} {f : Chunk} : cs = xs ++ [f] ++ ys → f.used = false → nb ≤ f.size →
      (fitFrom h.mem nb fl).head? = some f.addr → Serves env h cs fl nb h.endAddr xs f ys
  | grow {xs : List Chunk} {F : Chunk} : fitFrom h.mem nb fl = [] → Grows env h nb →
      Extends cs h.endAddr (grownEnd h.endAddr nb) xs F →
      Serves env h cs fl nb (grownEnd h.endAddr nb) xs F []

theorem read_grown_self (z : ℕ) : (grown env h h.endAddr).mem.read32 z = h.mem.read32 z := by
  apply Mem.read32_congr
  intro k _
  unfold Mem.read8 grown
  dsimp only
  rw [if_neg (by omega)]

/-- The first chunk of the list that fits. -/
theorem Arena.fit {Zp Zf : ℕ → Prop} (hA : Arena h cs fl Zp Zf) {a : ℕ}
    (ha : (fitFrom h.mem nb fl).head? = some a) :
    ∃ xs f ys, cs = xs ++ [f] ++ ys ∧ f.addr = a ∧ f.used = false ∧ nb ≤ f.size := by
  have hmem : a ∈ fl := (List.dropWhile_suffix _).subset (List.mem_of_head? ha)
  obtain ⟨f, hf, rfl, hfree⟩ := (hA.free a).1 hmem
  have hshown := (hA.tagged.shown f hf).1
  have hfit := List.head?_dropWhile_not (fun x => decide (hsize h.mem x < nb)) fl
  rw [show fl.dropWhile _ = fitFrom h.mem nb fl from rfl, ha] at hfit
  obtain ⟨xs, ys, rfl⟩ := List.append_of_mem hf
  refine ⟨xs, f, ys, by simp, rfl, hfree, ?_⟩
  simp only [decide_eq_false_iff_not] at hfit
  omega

/-- In the grown heap only the top chunk fits. -/
theorem Extends.fit (hA : Wf h cs fl) (hnone : fitFrom h.mem nb fl = []) {e' : ℕ}
    (hE : Extends cs e e' xs f) (hnb : nb ≤ f.size) {h' : Heap} {fl' : List ℕ}
    (hA' : Wf h' (xs ++ [f]) fl') : (fitFrom h'.mem nb fl').head? = some f.addr := by
  obtain ⟨mid, hcs, _⟩ := hE.exists_mid
  have hmem : f.addr ∈ fl' := (hA'.free _).2 ⟨f, by simp, rfl, hE.free⟩
  have hfsize := (hA'.tagged.shown f (by simp)).1
  have hne : fitFrom h'.mem nb fl' ≠ [] := by
    intro h0
    have := List.dropWhile_eq_nil_iff.1 h0 f.addr hmem
    rw [decide_eq_true_eq] at this
    omega
  obtain ⟨a, ha⟩ := Option.isSome_iff_exists.1 (List.isSome_head?.2 hne)
  obtain ⟨xs', g, ys', hsplit, rfl, hgfree, hgfit⟩ := hA'.fit ha
  have hg : g ∈ xs ++ [f] := by rw [hsplit]; simp
  rw [ha]
  rcases List.mem_append.1 hg with hgx | hgf
  · -- a chunk that was there before was too small
    have hgcs : g ∈ cs := by rw [hcs]; exact List.mem_append_left _ hgx
    have := List.dropWhile_eq_nil_iff.1 hnone g.addr ((hA.free _).2 ⟨g, hgcs, rfl, hgfree⟩)
    rw [decide_eq_true_eq, (hA.tagged.shown g hgcs).1] at this
    omega
  · rw [List.mem_singleton.1 hgf]

/-- A try that finds a hole. -/
theorem wp_allocUnlocked_hole (hA : Wf h (xs ++ [f] ++ ys) fl) {size fuel depth : ℕ}
    (hreq : request2size size = nb) (hfree : f.used = false) (hnb : 16 ≤ nb) (hnb8 : nb % 8 = 0)
    (hle : nb ≤ f.size) (hfit : (fitFrom h.mem nb fl).head? = some f.addr)
    (hW : ∀ z, MetaWord (xs ++ [f] ++ ys) z → W z)
    (hspill : ¬ nb + 16 ≤ f.size → f.addr + f.size = h.endAddr →
      (env.ext (h.endAddr / 4096) = false → err) ∧ (env.ext (h.endAddr / 4096) = true → S h.endAddr))
    {Q : ℕ → Heap → Prop}
    (hQ : ∀ h' fl',
      (¬ nb + 16 ≤ f.size → f.addr + f.size = h.endAddr → env.ext (h.endAddr / 4096) = true) →
      Arena h' (xs ++ carve f nb ++ ys) fl' Nowhere (staleFoot f nb) →
      h'.endAddr = h.endAddr → h'.head = h.head →
      (∀ z, z % 4 = 0 → f.addr + 16 ≤ z → z + 4 ≤ f.addr + nb →
        h'.mem.read32 z = h.mem.read32 z) → (BySize h.mem fl → BySize h'.mem fl') →
      Q (f.addr + 8) h') :
    Wp (Allowed h.head W U S M) err (allocUnlocked env size (fuel + 1) depth) Q h := by
  have hfb := hA.mem_bounds (show f ∈ xs ++ [f] ++ ys by simp)
  unfold allocUnlocked
  dsimp only
  rw [hreq]
  refine .bind (wp_findSmallestChunk hA.listed ?_)
  rw [List.headD_eq_head?_getD, hfit, Option.getD_some, if_neg (by omega)]
  exact wp_takeHole hA hfree hnb hnb8 hle hW hspill hQ

/-- **`Heap::alloc`.** -/
theorem wp_alloc (hA : Wf h cs fl) {size : ℕ} (hreq : request2size size = nb) (hnb : 16 ≤ nb)
    (hnb8 : nb % 8 = 0) (hlt : nb < 4294967296) (hWc : ∀ z, MetaWord cs z → W z)
    (hW : ∀ e xs f ys, Serves env h cs fl nb e xs f ys → ∀ z, MetaWord (xs ++ [f] ++ ys) z → W z)
    (herr : fitFrom h.mem nb fl = [] → ¬ Grows env h nb → err)
    (hM : fitFrom h.mem nb fl = [] → Wraps env h nb → M)
    (hspill : ∀ e xs f ys, Serves env h cs fl nb e xs f ys → ¬ nb + 16 ≤ f.size →
      f.addr + f.size = e → (env.ext (e / 4096) = false → err) ∧ (env.ext (e / 4096) = true → S e))
    {Q : ℕ → Heap → Prop}
    (hQ : ∀ e xs f ys h' fl', Serves env h cs fl nb e xs f ys →
      (¬ nb + 16 ≤ f.size → f.addr + f.size = e → env.ext (e / 4096) = true) →
      Arena h' (xs ++ carve f nb ++ ys) fl' Nowhere (staleFoot f nb) →
      h'.endAddr = e → h'.head = h.head →
      (∀ z, z % 4 = 0 → f.addr + 16 ≤ z → z + 4 ≤ f.addr + nb →
        h'.mem.read32 z = (grown env h e).mem.read32 z) → (BySize h.mem fl → BySize h'.mem fl') →
      Q (f.addr + 8) h') :
    Wp (Allowed h.head W U S M) err (alloc env size) Q h := by
  show Wp _ _ (allocUnlocked env size (4294967294 + 1 + 1) 0) Q h
  cases hfit : (fitFrom h.mem nb fl).head? with
  | some a =>
    obtain ⟨xs, f, ys, rfl, rfl, hfree, hle⟩ := hA.fit hfit
    have hserve : Serves env h (xs ++ [f] ++ ys) fl nb h.endAddr xs f ys :=
      .hole rfl hfree hle hfit
    refine wp_allocUnlocked_hole hA hreq hfree hnb hnb8 hle hfit (hW _ _ _ _ hserve)
      (hspill _ _ _ _ hserve) fun h' fl' hext hA' he' hh' hwords hord => ?_
    refine hQ _ _ _ _ h' fl' hserve hext hA' he' hh' (fun z h1 h2 h3 => ?_) hord
    rw [read_grown_self]
    exact hwords z h1 h2 h3
  | none =>
    have hnone : fitFrom h.mem nb fl = [] := List.head?_eq_none_iff.1 hfit
    have hb := hA.listed.sane.bounds
    have hgb := grownEnd_bounds hb.1 (show 0 < nb by omega)
    have hWl : ∀ x ∈ fl, W (x + 8) ∧ W (x + 12) := fun x hx =>
      (hA.links_meta hx).imp (hWc _) (hWc _)
    unfold allocUnlocked
    dsimp only
    rw [hreq]
    refine .bind (wp_findSmallestChunk hA.listed ?_)
    rw [hnone, List.headD_nil, if_pos rfl]
    have hWE : Grows env h nb → ∀ xs F, Extends cs h.endAddr (grownEnd h.endAddr nb) xs F →
        ∀ z, MetaWord (xs ++ [F]) z → W z := by
      intro hg xs F hE z hz
      refine hW _ _ _ _ (.grow hnone hg hE) z ?_
      rw [List.append_nil]
      exact hz
    refine .bind (wp_growTop hA (by omega) hlt hWE hWl (herr hnone) (hM hnone) ?_)
    intro hg h₁ fl₁ xs F hE hA₁ he₁ hh₁ hwords₁ hord₁
    refine .bind (.emit rfl ?_)
    have hserve : Serves env h cs fl nb _ xs F [] := .grow hnone hg hE
    have htiles := hE.tiles hA.tiles
    have hends := hE.ends
    have hle : nb ≤ F.size := by omega
    have hA₁' : Wf h₁ (xs ++ [F] ++ []) fl₁ := by
      rw [List.append_nil]
      exact hA₁
    have hsp := hspill _ _ _ _ hserve
    rw [← he₁] at hsp
    rw [← hh₁]
    refine wp_allocUnlocked_hole hA₁' hreq hE.free hnb hnb8 hle (hE.fit hA hnone hle hA₁)
      (hW _ _ _ _ hserve) hsp fun h' fl' hext hA' he' hh' hwords hord => ?_
    rw [he₁] at hext
    refine hQ _ _ _ _ h' fl' hserve hext hA' (he'.trans he₁) (hh'.trans hh₁)
      (fun z h1 h2 h3 => ?_) fun hb => hord (hord₁ hb)
    rw [hwords z h1 h2 h3]
    exact hwords₁ z h1 h2 (by omega)

/-! ## The chunk that is taken -/

theorem Serves.bounds (hA : Wf h cs fl) (hs : Serves env h cs fl nb e xs f ys) (hnb : 0 < nb) :
    16777216 ≤ f.addr ∧ f.addr % 8 = 0 ∧ nb ≤ f.size ∧ f.size % 8 = 0 ∧ f.addr + f.size ≤ e ∧
      h.endAddr ≤ e ∧ e % 4096 = 0 ∧ 17825792 ≤ e ∧ e ≤ 33554432 ∧ f.used = false := by
  have hb := hA.listed.sane.bounds
  cases hs with
  | hole hcs hfree hle _ =>
    have := hA.mem_bounds (c := f) (by rw [hcs]; simp)
    exact ⟨by omega, by omega, hle, by omega, by omega, by omega, by omega, by omega, by omega,
      hfree⟩
  | grow _ hg hE =>
    have h1 := grownEnd_bounds hb.1 hnb
    have h2 := hg.1
    have h3 := hE.tiles hA.tiles
    have h4 := hE.ends
    exact ⟨by omega, by omega, by omega, by omega, by omega, by omega, by omega, by omega, by omega,
      hE.free⟩

/-- The chunks around the one taken are in use. -/
theorem Serves.used_around (hA : Wf h cs fl) (hs : Serves env h cs fl nb e xs f ys) :
    (∀ x ∈ xs, x.addr + x.size = f.addr → x.used = true) ∧
      ∀ y ∈ ys, y.addr = f.addr + f.size → y.used = true := by
  cases hs with
  | hole hcs hfree _ _ =>
    subst hcs
    constructor
    · intro x hx hxf
      have := hA.apart x (by simp [hx]) f (by simp) hxf
      rw [hfree] at this
      exact this.resolve_right fun h => by cases h
    · intro y hy hyf
      have := hA.apart f (by simp) y (by simp [hy]) hyf.symm
      rw [hfree] at this
      exact this.resolve_left fun h => by cases h
  | grow _ _ hE => exact ⟨fun x hx hxf => hE.used_before hA.apart hx hxf, fun y hy => by cases hy⟩

/-- The chunks in use stay where they are. -/
theorem Serves.used_mem (hs : Serves env h cs fl nb e xs f ys) {c : Chunk} (hu : c.used = true) :
    c ∈ cs ↔ c ∈ xs ∨ c ∈ ys := by
  have hne : ∀ d : Chunk, d.used = false → c ≠ d := by
    rintro d hd rfl
    rw [hu] at hd
    cases hd
  cases hs with
  | hole hcs hfree _ _ =>
    rw [hcs]
    simp [hne f hfree]
  | grow _ _ hE =>
    rcases hE.split with ⟨rfl, _, _⟩ | ⟨t, rfl, ht, _⟩
    · simp
    · simp [hne t ht]

/-- The words of the heap that serves a request: those of the heap before, or new ones. -/
theorem Serves.metaWord (hA : Wf h cs fl) (hs : Serves env h cs fl nb e xs f ys) {z : ℕ}
    (hz : MetaWord (xs ++ [f] ++ ys) z) : MetaWord cs z ∨ h.endAddr ≤ z := by
  cases hs with
  | hole hcs _ _ _ =>
    rw [hcs]
    exact Or.inl hz
  | grow _ _ hE =>
    rw [List.append_nil] at hz
    rcases hE.split with ⟨rfl, haddr, _⟩ | ⟨t, rfl, htu, haddr⟩
    · rcases hz with ⟨c, hc, rfl⟩ | ⟨c, hc, hu, h1, h2⟩
      · rcases List.mem_append.1 hc with hc | hc
        · exact Or.inl (Or.inl ⟨c, hc, rfl⟩)
        · rw [List.mem_singleton.1 hc]
          exact Or.inr (by omega)
      · rcases List.mem_append.1 hc with hc | hc
        · exact Or.inl (Or.inr ⟨c, hc, hu, h1, h2⟩)
        · rw [List.mem_singleton.1 hc] at h1
          exact Or.inr (by omega)
    · have htend : t.addr + t.size = h.endAddr := by
        have h1 := hA.tiles
        exact h1.split.2.2.2
      rcases hz with ⟨c, hc, rfl⟩ | ⟨c, hc, hu, h1, h2⟩
      · rcases List.mem_append.1 hc with hc | hc
        · exact Or.inl (Or.inl ⟨c, by simp [hc], rfl⟩)
        · rw [List.mem_singleton.1 hc]
          exact Or.inl (Or.inl ⟨t, by simp, by omega⟩)
      · rcases List.mem_append.1 hc with hc | hc
        · exact Or.inl (Or.inr ⟨c, by simp [hc], hu, h1, h2⟩)
        · rw [List.mem_singleton.1 hc] at h1
          by_cases hzt : z < t.addr + t.size + 4
          · exact Or.inl (Or.inr ⟨t, by simp, htu, by omega, hzt⟩)
          · exact Or.inr (by omega)

end

end Heap

end Ospp
