import Ospp.Mm.HeapGrow

/-!
# Release

What `free_unlocked` does to the chunks. The released chunk `p` and its free neighbours, `L` on the
left and `R` on the right, become one free chunk; at the top of the heap that chunk is cut off at
the next page boundary that leaves room for a chunk.

The assertion in `contract_unlocked` fails for one layout: a chunk of the minimal size at the end
of the heap, with nothing to merge with on its left.
-/

namespace Ospp

open Cmd

namespace Heap

/-- The chunk that a release leaves behind, before the heap shrinks. -/
def merged (L : Option Chunk) (p : Chunk) (R : Option Chunk) : Chunk :=
  ⟨(L.map Chunk.addr).getD p.addr, (L.map Chunk.size).getD 0 + p.size + (R.map Chunk.size).getD 0,
    false⟩

/-- The released chunk, between its free neighbours and the other chunks. -/
structure Around (h : Heap) (xs : List Chunk) (L : Option Chunk) (p : Chunk) (R : Option Chunk)
    (ys : List Chunk) (fl : List ℕ) (Zp Zf : ℕ → Prop) : Prop where
  arena : Arena h (xs ++ (L.toList ++ [p] ++ R.toList) ++ ys) fl Zp Zf
  used : p.used = true
  left : ∀ x ∈ L, x.used = false
  right : ∀ y ∈ R, y.used = false
  before : ∀ x ∈ xs, x.addr + x.size = (merged L p R).addr → x.used = true
  after : ∀ y ∈ ys, y.addr = (merged L p R).addr + (merged L p R).size → y.used = true
  /-- What is read of the tags is vouched for. -/
  pin : ¬ Zp p.addr
  foot : ¬ Zf p.addr
  pinNext : ¬ Zp (p.addr + p.size)

section

variable {env : HeapEnv} {W : ℕ → Prop} {U : ℕ → ℕ → Prop} {S : ℕ → Prop} {M err : Prop} {h h' h₁ : Heap}
  {xs ys cs : List Chunk} {L R : Option Chunk} {p : Chunk} {fl fl' fl₁ : List ℕ}
  {Zp Zf : ℕ → Prop} {e : ℕ}

/-- Where the parts lie. -/
structure Places (xs : List Chunk) (L : Option Chunk) (p : Chunk) (R : Option Chunk)
    (ys : List Chunk) (e : ℕ) : Prop where
  xs : Tiles 16777216 xs (merged L p R).addr
  left : ∀ x ∈ L, x.addr = (merged L p R).addr ∧ x.addr + x.size = p.addr ∧ 16 ≤ x.size ∧
    x.size % 8 = 0
  noleft : L = none → p.addr = (merged L p R).addr
  size : 16 ≤ p.size ∧ p.size % 8 = 0
  right : ∀ y ∈ R, y.addr = p.addr + p.size ∧ 16 ≤ y.size ∧ y.size % 8 = 0 ∧
    y.addr + y.size = (merged L p R).addr + (merged L p R).size
  noright : R = none → p.addr + p.size = (merged L p R).addr + (merged L p R).size
  ys : Tiles ((merged L p R).addr + (merged L p R).size) ys e

theorem places (ht : Tiles 16777216 (xs ++ (L.toList ++ [p] ++ R.toList) ++ ys) e) :
    Places xs L p R ys e := by
  obtain ⟨b, hxm, hy⟩ := tiles_append.1 ht
  obtain ⟨a, hx, hm⟩ := tiles_append.1 hxm
  cases L with
  | none =>
    cases R with
    | none =>
      obtain ⟨h1, h2, h3, h4⟩ := hm
      subst h1
      have h5 : p.addr + p.size = b := h4
      subst h5
      refine ⟨hx, fun x hx => (by cases hx), fun _ => rfl, ⟨h2, h3⟩, fun y hy => (by cases hy),
        fun _ => ?_, ?_⟩
      · simp [merged]
      · simpa [merged] using hy
    | some y =>
      obtain ⟨h1, h2, h3, h4, h5, h6, h7⟩ := hm
      subst h1
      have h8 : p.addr + p.size + y.size = b := h7
      subst h8
      refine ⟨hx, fun x hx => (by cases hx), fun _ => rfl, ⟨h2, h3⟩, fun z hz => ?_,
        fun h => (by cases h), ?_⟩
      · cases hz
        refine ⟨h4, h5, h6, ?_⟩
        simp [merged]
        omega
      · simpa [merged, Nat.add_assoc] using hy
  | some x =>
    cases R with
    | none =>
      obtain ⟨h1, h2, h3, h4, h5, h6, h7⟩ := hm
      subst h1
      have h8 : x.addr + x.size + p.size = b := h7
      subst h8
      refine ⟨hx, fun z hz => ?_, fun h => (by cases h), ⟨h5, h6⟩, fun y hy => (by cases hy),
        fun _ => ?_, ?_⟩
      · cases hz
        exact ⟨rfl, h4.symm, h2, h3⟩
      · simp [merged]
        omega
      · simpa [merged, Nat.add_assoc] using hy
    | some y =>
      obtain ⟨h1, h2, h3, h4, h5, h6, h7, h8, h9, h10⟩ := hm
      subst h1
      have h11 : x.addr + x.size + p.size + y.size = b := h10
      subst h11
      refine ⟨hx, fun z hz => ?_, fun h => (by cases h), ⟨h5, h6⟩, fun z hz => ?_,
        fun h => (by cases h), ?_⟩
      · cases hz
        exact ⟨rfl, h4.symm, h2, h3⟩
      · cases hz
        refine ⟨by omega, h8, h9, ?_⟩
        simp [merged]
        omega
      · simpa [merged, Nat.add_assoc] using hy

/-- Every chunk in use has such surroundings. -/
theorem Arena.exists_around (hA : Arena h cs fl Zp Zf) (hp : p ∈ cs) (hused : p.used = true)
    (hpin : ¬ Zp p.addr) (hfoot : ¬ Zf p.addr) (hnext : ¬ Zp (p.addr + p.size)) :
    ∃ xs L R ys, cs = xs ++ (L.toList ++ [p] ++ R.toList) ++ ys ∧
      Around h xs L p R ys fl Zp Zf := by
  obtain ⟨xs₀, ys₀, rfl⟩ := List.append_of_mem hp
  -- the free chunk before, if there is one
  obtain ⟨xs, L, hxs, hL, hbefore⟩ : ∃ xs L, xs₀ = xs ++ L.toList ∧
      (∀ x ∈ L, x.used = false) ∧ (L = none → ∀ x ∈ xs, x.addr + x.size = p.addr →
        x.used = true) := by
    rcases List.eq_nil_or_concat xs₀ with rfl | ⟨xs, x, rfl⟩
    · exact ⟨[], none, rfl, fun x hx => (by cases hx), fun _ x hx => (by cases hx)⟩
    · rw [List.concat_eq_append] at *
      cases hu : x.used with
      | false => exact ⟨xs, some x, rfl, fun z hz => (by cases hz; exact hu), fun h => (by cases h)⟩
      | true =>
        refine ⟨xs ++ [x], none, by simp, fun z hz => (by cases hz), fun _ z hz hzp => ?_⟩
        have ht := hA.tiles
        rcases ht.sep (show z ∈ xs ++ [x] ++ p :: ys₀ by simp at hz ⊢; tauto)
          (show x ∈ xs ++ [x] ++ p :: ys₀ by simp) with h1 | h1
        · rw [h1]
          exact hu
        · have h2 := ht.split.1.mem (show x ∈ xs ++ [x] by simp)
          have h3 := ht.split.1.mem hz
          have h4 : x.addr + x.size = p.addr := by
            obtain ⟨b, h5, h6⟩ := tiles_append.1 ht.split.1
            have h7 := h6.1
            have h8 : b + x.size = p.addr := h6.2.2.2
            omega
          omega
  -- the free chunk after, if there is one
  obtain ⟨ys, R, hys, hR, hafter⟩ : ∃ ys R, ys₀ = R.toList ++ ys ∧
      (∀ y ∈ R, y.used = false) ∧ (R = none → ∀ y ∈ ys, y.addr = p.addr + p.size →
        y.used = true) := by
    cases ys₀ with
    | nil => exact ⟨[], none, rfl, fun x hx => (by cases hx), fun _ x hx => (by cases hx)⟩
    | cons y ys =>
      cases hu : y.used with
      | false => exact ⟨ys, some y, rfl, fun z hz => (by cases hz; exact hu), fun h => (by cases h)⟩
      | true =>
        refine ⟨y :: ys, none, rfl, fun z hz => (by cases hz), fun _ z hz hzp => ?_⟩
        have h1 := hA.tiles.split.2.2.2
        have h2 : y.addr = p.addr + p.size := h1.1
        have h3 := h1.eq_of_addr hz (List.mem_cons_self ..) (by omega)
        rw [h3]
        exact hu
  subst hxs hys
  have hcs : xs ++ L.toList ++ p :: (R.toList ++ ys) =
      xs ++ (L.toList ++ [p] ++ R.toList) ++ ys := by simp
  rw [hcs] at hA
  have hP := places hA.tiles
  refine ⟨xs, L, R, ys, hcs, hA, hused, hL, hR, fun x hx hxa => ?_, fun y hy hya => ?_, hpin,
    hfoot, hnext⟩
  · cases hLe : L with
    | none => exact hbefore hLe x hx (hxa.trans (hP.noleft hLe).symm)
    | some l =>
      have hl := hP.left l hLe
      have hadj := hA.apart x (by simp [hx]) l (by simp [hLe]) (hxa.trans hl.1.symm)
      rw [hL l hLe] at hadj
      exact hadj.resolve_right fun h => by cases h
  · cases hRe : R with
    | none => exact hafter hRe y hy (hya.trans (hP.noright hRe).symm)
    | some r =>
      have hr := hP.right r hRe
      have hadj := hA.apart r (by simp [hRe]) y (by simp [hy]) (hr.2.2.2.trans hya.symm)
      rw [hR r hRe] at hadj
      exact hadj.resolve_left fun h => by cases h

/-- The merged chunk begins where `p` does, or before. -/
theorem Places.merged_le (hP : Places xs L p R ys e) : (merged L p R).addr ≤ p.addr := by
  cases hL : L with
  | none =>
    have := hP.noleft hL
    rw [← hL]
    omega
  | some x =>
    have := hP.left x hL
    rw [← hL]
    omega

/-- Where the merged chunk lies. -/
theorem Around.merged_bounds (hA : Around h xs L p R ys fl Zp Zf) :
    16777216 ≤ (merged L p R).addr ∧ (merged L p R).addr % 8 = 0 ∧ p.size ≤ (merged L p R).size ∧
      (merged L p R).size % 8 = 0 ∧ (merged L p R).addr + (merged L p R).size ≤ h.endAddr := by
  have hP := places hA.arena.tiles
  have hle := hP.ys.le
  have hp := hA.arena.mem_bounds (c := p) (by simp)
  have hmle := hP.merged_le
  have haddr : 16777216 ≤ (merged L p R).addr ∧ (merged L p R).addr % 8 = 0 := by
    cases hL : L with
    | none =>
      have := hP.noleft hL
      rw [← hL]
      omega
    | some x =>
      have h1 := hP.left x hL
      have h2 := hA.arena.mem_bounds (c := x) (by simp [hL])
      rw [← hL]
      omega
  have hend : ((merged L p R).addr + (merged L p R).size) % 8 = 0 ∧
      p.addr + p.size ≤ (merged L p R).addr + (merged L p R).size := by
    cases hR : R with
    | none =>
      have := hP.noright hR
      rw [← hR]
      omega
    | some y =>
      have h1 := hP.right y hR
      rw [← hR]
      omega
  omega

/-! ## Merging -/

/-- Some chunks have left the list; nothing but links has changed. -/
structure Unlinked (h h₁ : Heap) (fl fl₁ : List ℕ) : Prop where
  listed : Listed h₁ fl₁
  endAddr : h₁.endAddr = h.endAddr
  head : h₁.head = h.head
  sub : ∀ z ∈ fl₁, z ∈ fl
  words : ∀ z, 16777216 ≤ z → z % 4 = 0 → z < 4294967296 →
    (∀ x ∈ fl, z ≠ x + 8 ∧ z ≠ x + 12) → h₁.mem.read32 z = h.mem.read32 z

theorem Unlinked.refl (hl : Listed h fl) : Unlinked h h fl fl :=
  ⟨hl, rfl, rfl, fun _ hz => hz, fun _ _ _ _ _ => rfl⟩

/-- The tags of a chunk are no links. -/
theorem Arena.tags_ne_links (hA : Arena h cs fl Zp Zf) {c : Chunk} (hc : c ∈ cs) {x : ℕ}
    (hx : x ∈ fl) :
    c.addr ≠ x + 8 ∧ c.addr ≠ x + 12 ∧ c.addr + 4 ≠ x + 8 ∧ c.addr + 4 ≠ x + 12 := by
  have h1 := hA.sep_listed hc hx
  have h2 := hA.mem_bounds hc
  omega

theorem Unlinked.keep (hu : Unlinked h h₁ fl fl₁) (hA : Arena h cs fl Zp Zf) {c : Chunk}
    (hc : c ∈ cs) : h₁.mem.read32 (c.addr + 4) = h.mem.read32 (c.addr + 4) ∧
      h₁.mem.read32 c.addr = h.mem.read32 c.addr := by
  have hb := hA.mem_bounds hc
  constructor
  · refine hu.words _ (by omega) (by omega) (by omega) fun x hx => ?_
    have := hA.tags_ne_links hc hx
    exact ⟨this.2.2.1, this.2.2.2⟩
  · refine hu.words _ (by omega) (by omega) (by omega) fun x hx => ?_
    have := hA.tags_ne_links hc hx
    exact ⟨this.1, this.2.1⟩

/-- **Merging with the chunk before.** -/
theorem wp_mergePrev (hA : Around h xs L p R ys fl Zp Zf)
    (hW : ∀ x ∈ fl, W (x + 8) ∧ W (x + 12)) {Q : ℕ × ℕ → Heap → Prop}
    (hQ : ∀ h₁ fl₁, Unlinked h h₁ fl fl₁ → (∀ z, z ∈ fl₁ ↔ z ∈ fl ∧ ∀ x ∈ L, z ≠ x.addr) →
      (BySize h.mem fl → BySize h₁.mem fl₁) →
      Q ((merged L p R).addr, (L.map Chunk.size).getD 0 + p.size) h₁) :
    Wp (Allowed h.head W U S M) err (mergePrev env p.addr p.size) Q h := by
  have hP := places hA.arena.tiles
  have hs := hA.arena.listed.sane
  have hp : p ∈ xs ++ (L.toList ++ [p] ++ R.toList) ++ ys := by simp
  have hpb := hA.arena.mem_bounds hp
  unfold mergePrev
  refine .bind (wp_pinuse hs hpb.1 (by omega) ?_)
  cases hL : L with
  | none =>
    -- the chunk before is in use, or there is none
    have hpin : hpin h.mem p.addr = true := by
      by_cases hstart : p.addr = 16777216
      · exact hA.arena.tagged.first p hp hstart
      · obtain ⟨x, hx, hxp⟩ := hP.xs.exists_last (by rw [← hP.noleft hL]; exact hstart)
        rw [← hP.noleft hL] at hxp
        rw [hA.arena.tagged.pin x (by simp [hx]) p hp hxp hA.pin]
        exact hA.before x hx (hxp.trans (hP.noleft hL))
    rw [hpin, if_pos rfl, hP.noleft hL]
    have := hQ h fl (.refl hA.arena.listed) (fun z => ⟨fun hz => ⟨hz, fun x hx => by
      rw [hL] at hx; cases hx⟩, fun hz => hz.1⟩) id
    rw [hL] at this ⊢
    simp only [Option.map_none, Option.getD_none, Nat.zero_add] at this
    exact .pure this
  | some x =>
    obtain ⟨h1, h2, h3, h4⟩ := hP.left x hL
    have hx : x ∈ xs ++ (L.toList ++ [p] ++ R.toList) ++ ys := by simp [hL]
    have hxb := hA.arena.mem_bounds hx
    have hxu := hA.left x hL
    rw [hA.arena.tagged.pin x hx p hp h2 hA.pin, hxu, if_neg (by decide)]
    refine .bind (wp_load hs (Or.inl ⟨by unfold heapStart; omega, by omega⟩) ?_)
    rw [hA.arena.tagged.foot x hx p hp h2 hxu hA.foot]
    dsimp only
    rw [Word32.sub_eq (show p.addr < 4294967296 by omega) (by omega),
      show p.addr - x.size = x.addr by omega]
    refine .bind (.get ?_)
    rw [if_pos (by unfold okAddress heapStart; simp; omega)]
    refine .bind (wp_removeChunk_words hA.arena.listed ((hA.arena.free _).2 ⟨x, hx, rfl, hxu⟩) hW ?_)
    intro h₁ fl₁ hl₁ he₁ hh₁ hfl₁ hwords₁ hord₁
    rw [Word32.add_eq (show p.size + x.size < 4294967296 by omega)]
    have := hQ h₁ fl₁ ⟨hl₁, he₁, hh₁, fun z hz => ((hfl₁ z).1 hz).1, fun z h1 h2 h3 h4 =>
      hwords₁ z h1 h2 h3 fun x hx => h4 x ((hfl₁ x).1 hx).1⟩ (fun z => by
        rw [hfl₁, hL]
        simp) hord₁
    rw [← h1, hL] at this
    simp only [Option.map_some, Option.getD_some] at this
    rw [Nat.add_comm p.size]
    exact .pure this

/-- The chunk `p` and its free neighbours have left the list, and the chunk behind them knows. -/
structure Loose (h h₂ : Heap) (L : Option Chunk) (p : Chunk) (R : Option Chunk)
    (fl fl₂ : List ℕ) (Zp : ℕ → Prop) : Prop where
  listed : Listed h₂ fl₂
  endAddr : h₂.endAddr = h.endAddr
  head : h₂.head = h.head
  list : ∀ z, z ∈ fl₂ ↔ z ∈ fl ∧ (∀ x ∈ L, z ≠ x.addr) ∧ ∀ y ∈ R, z ≠ y.addr
  words : ∀ z, 16777216 ≤ z → z % 4 = 0 → z < 4294967296 →
    (∀ x ∈ fl, z ≠ x + 8 ∧ z ≠ x + 12) → z ≠ (merged L p R).addr + (merged L p R).size + 4 →
    h₂.mem.read32 z = h.mem.read32 z
  next : ∀ y, y = (merged L p R).addr + (merged L p R).size → y ≠ h.endAddr →
    h₂.mem.read32 (y + 4) / 2 = h.mem.read32 (y + 4) / 2 ∧
      (¬ Zp y → h₂.mem.read32 (y + 4) % 2 = 0)

/-- What is read of the chunk after. -/
theorem Unlinked.next_reads (hA : Around h xs L p R ys fl Zp Zf) (hu : Unlinked h h₁ fl fl₁)
    {n : Chunk} (hn : n ∈ xs ++ (L.toList ++ [p] ++ R.toList) ++ ys)
    (hna : n.addr = p.addr + p.size) :
    hpin h₁.mem n.addr = true ∧ hused h₁.mem n.addr = n.used ∧ hsize h₁.mem n.addr = n.size := by
  have hp : p ∈ xs ++ (L.toList ++ [p] ++ R.toList) ++ ys := by simp
  obtain ⟨hnhead, _⟩ := hu.keep hA.arena hn
  have hnshown := hA.arena.tagged.shown n hn
  unfold hpin hused hsize
  rw [hnhead]
  refine ⟨?_, hnshown.2, hnshown.1⟩
  have := hA.arena.tagged.pin p hp n hn hna.symm (by rw [hna]; exact hA.pinNext)
  rwa [hA.used] at this

/-- Without a free neighbour the chunk after is one of those behind. -/
theorem Around.mem_after (hA : Around h xs L p none ys fl Zp Zf) {n : Chunk}
    (hn : n ∈ xs ++ (L.toList ++ [p] ++ (none : Option Chunk).toList) ++ ys)
    (hna : n.addr = p.addr + p.size) : n ∈ ys := by
  have hP := places hA.arena.tiles
  have hpb := hA.arena.mem_bounds (c := p) (by simp)
  rw [List.append_assoc, List.mem_append] at hn
  rcases hn with hn | hn
  · have := hP.xs.mem hn
    have := hP.merged_le
    omega
  · simp only [List.mem_append, Option.mem_toList, List.mem_singleton, Option.toList_none,
      List.append_nil] at hn
    rcases hn with (hn | rfl) | hn
    · have := hP.left n hn
      omega
    · omega
    · exact hn

/-- The chunk after is in use and has been told. -/
theorem Unlinked.loose_told (hA : Around h xs L p none ys fl Zp Zf) (hu : Unlinked h h₁ fl fl₁)
    (hfl₁ : ∀ z, z ∈ fl₁ ↔ z ∈ fl ∧ ∀ x ∈ L, z ≠ x.addr) {n : Chunk} (hn : n ∈ ys)
    (hna : n.addr = p.addr + p.size) :
    Loose h (h₁.write (n.addr + 4) (h₁.mem.read32 (n.addr + 4) / 2 * 2)) L p none fl fl₁ Zp := by
  have hE := (places hA.arena.tiles).noright rfl
  have hmem : n ∈ xs ++ (L.toList ++ [p] ++ (none : Option Chunk).toList) ++ ys := by simp [hn]
  have hnb := hA.arena.mem_bounds hmem
  obtain ⟨hnhead, _⟩ := hu.keep hA.arena hmem
  have hlt := Mem.read32_lt h.mem (n.addr + 4)
  refine ⟨?_, hu.endAddr, hu.head, fun z => ?_, fun z h1 h2 h3 h4 h5 => ?_, fun y hy hne => ?_⟩
  · refine hu.listed.write (by omega) (by omega)
      (not_listWord hu.listed.sane (by omega) fun x hx => ?_)
    have := hA.arena.tags_ne_links hmem (hu.sub x hx)
    exact ⟨this.2.2.1, this.2.2.2⟩
  · rw [hfl₁]
    simp
  · rw [read_write_ne (by omega) h2 (by omega) (by omega) h3]
    exact hu.words z h1 h2 h3 h4
  · rw [hy, ← hE, ← hna, read_write_self (by rw [hnhead]; omega), hnhead]
    omega

/-- The chunk after is free and has been taken off the list. -/
theorem Unlinked.loose_joined {n : Chunk} (hA : Around h xs L p (some n) ys fl Zp Zf)
    (hu : Unlinked h h₁ fl fl₁) (hfl₁ : ∀ z, z ∈ fl₁ ↔ z ∈ fl ∧ ∀ x ∈ L, z ≠ x.addr)
    {h₂ : Heap} {fl₂ : List ℕ} (hl₂ : Listed h₂ fl₂) (he₂ : h₂.endAddr = h₁.endAddr)
    (hh₂ : h₂.head = h₁.head) (hfl₂ : ∀ z, z ∈ fl₂ ↔ z ∈ fl₁ ∧ z ≠ n.addr)
    (hwords₂ : ∀ z, 16777216 ≤ z → z % 4 = 0 → z < 4294967296 →
      (∀ x ∈ fl₂, z ≠ x + 8 ∧ z ≠ x + 12) → h₂.mem.read32 z = h₁.mem.read32 z) :
    Loose h h₂ L p (some n) fl fl₂ Zp := by
  obtain ⟨h1, h2, h3, h4⟩ := (places hA.arena.tiles).right n rfl
  have hn : n ∈ xs ++ (L.toList ++ [p] ++ (some n).toList) ++ ys := by simp
  have hwords : ∀ z, 16777216 ≤ z → z % 4 = 0 → z < 4294967296 →
      (∀ x ∈ fl, z ≠ x + 8 ∧ z ≠ x + 12) → h₂.mem.read32 z = h.mem.read32 z := by
    intro z h1 h2 h3 h4
    rw [hwords₂ z h1 h2 h3 fun x hx => h4 x (hu.sub x ((hfl₂ x).1 hx).1)]
    exact hu.words z h1 h2 h3 h4
  refine ⟨hl₂, he₂.trans hu.endAddr, hh₂.trans hu.head, fun z => ?_,
    fun z h1 h2 h3 h4 _ => hwords z h1 h2 h3 h4, fun y hy hne => ?_⟩
  · rw [hfl₂, hfl₁]
    simp [and_assoc]
  · -- the chunk behind the free neighbour knew already
    obtain ⟨m, hm, hma⟩ := hA.arena.tiles.exists_next hn (by omega)
    have hmb := hA.arena.mem_bounds hm
    have hkeep : h₂.mem.read32 (m.addr + 4) = h.mem.read32 (m.addr + 4) :=
      hwords _ (by omega) (by omega) (by omega) fun x hx => (hA.arena.tags_ne_links hm hx).2.2
    have hym : y = m.addr := by omega
    rw [hym, hkeep]
    refine ⟨rfl, fun hz => ?_⟩
    have hpin := hA.arena.tagged.pin n hn m hm hma.symm hz
    rw [hA.right n rfl] at hpin
    have := of_decide_eq_false hpin
    omega

/-- **Merging with the chunk after.** -/
theorem wp_mergeNext (hA : Around h xs L p R ys fl Zp Zf) (hu : Unlinked h h₁ fl fl₁)
    (hfl₁ : ∀ z, z ∈ fl₁ ↔ z ∈ fl ∧ ∀ x ∈ L, z ≠ x.addr)
    (hW : ∀ x ∈ fl, W (x + 8) ∧ W (x + 12)) (hWn : ∀ c ∈ ys, W (c.addr + 4)) {block : ℕ}
    {Q : ℕ → Heap → Prop}
    (hQ : ∀ h₂ fl₂, Loose h h₂ L p R fl fl₂ Zp → (BySize h₁.mem fl₁ → BySize h₂.mem fl₂) →
      Q (merged L p R).size h₂) :
    Wp (Allowed h₁.head W U S M) err
      (mergeNext env block ((L.map Chunk.size).getD 0 + p.size) (p.addr + p.size)) Q h₁ := by
  have hP := places hA.arena.tiles
  have hs₁ := hu.listed.sane
  have hp : p ∈ xs ++ (L.toList ++ [p] ++ R.toList) ++ ys := by simp
  have hpb := hA.arena.mem_bounds hp
  have hRn : R = none → (merged L p R).size = (L.map Chunk.size).getD 0 + p.size := by
    rintro rfl
    simp [merged]
  unfold mergeNext
  refine .bind (.get ?_)
  by_cases htop : p.addr + p.size = h.endAddr
  · -- nothing follows
    rw [if_neg (by unfold okAddress; rw [hu.endAddr, htop]; simp)]
    have hR : R = none := by
      cases hR : R with
      | none => rfl
      | some y =>
        have := hP.right y hR
        have := hP.ys.le
        omega
    rw [← hRn hR]
    refine .pure (hQ h₁ fl₁ ⟨hu.listed, hu.endAddr, hu.head, fun z => ?_,
      fun z h1 h2 h3 h4 _ => hu.words z h1 h2 h3 h4, fun y hy hne => ?_⟩ id)
    · rw [hfl₁, hR]
      simp
    · exact absurd (hy.trans ((hP.noright hR).symm.trans htop)) hne
  · obtain ⟨n, hn, hna⟩ := hA.arena.tiles.exists_next hp htop
    have hnb := hA.arena.mem_bounds hn
    obtain ⟨hnpin, hnused, hnsize⟩ := hu.next_reads hA hn hna
    rw [← hna, if_pos (by unfold okAddress heapStart; rw [hu.endAddr]; simp; omega)]
    refine .bind (wp_pinuse hs₁ hnb.1 (by rw [hu.endAddr]; omega) ?_)
    rw [hnpin, if_pos rfl]
    refine .bind (wp_cinuse hs₁ hnb.1 (by rw [hu.endAddr]; omega) ?_)
    rw [hnused]
    cases R with
    | none =>
      have hnys := hA.mem_after hn hna
      have hnuse := hA.after n hnys (hna.trans (hP.noright rfl))
      rw [if_pos hnuse, ← hRn rfl]
      refine .bind (wp_clearPinuse hs₁ hnb.1 (by rw [hu.endAddr]; omega) (hWn n hnys) (.pure ?_))
      refine hQ _ fl₁ (hu.loose_told hA hfl₁ hnys hna) fun hb =>
        hu.listed.bySize_write (by omega) (by omega) (fun x hx => ?_) hb
      have := hA.arena.outside_used hn hnuse (hu.sub x hx)
      omega
    | some y =>
      obtain ⟨h1, h2, h3, h4⟩ := hP.right y rfl
      have hyu := hA.right y rfl
      obtain rfl : n = y := hA.arena.tiles.eq_of_addr hn (by simp) (by omega)
      rw [hyu, if_neg (by decide)]
      refine .bind (wp_chunksize hs₁ hnb.1 (by rw [hu.endAddr]; omega) ?_)
      rw [hnsize, Word32.add_eq (show n.addr + n.size < 4294967296 by omega),
        if_neg (by rw [hu.endAddr]; omega)]
      have hnfl₁ : n.addr ∈ fl₁ := by
        refine (hfl₁ _).2 ⟨(hA.arena.free _).2 ⟨n, hn, rfl, hyu⟩, fun x hx => ?_⟩
        have := hP.left x hx
        omega
      refine .bind (wp_removeChunk_words hu.listed hnfl₁ (fun x hx => hW x (hu.sub x hx)) ?_)
      intro h₂ fl₂ hl₂ he₂ hh₂ hfl₂ hwords₂ hord₂
      have hmb : (merged L p (some n)).addr + (merged L p (some n)).size ≤ h.endAddr := hP.ys.le
      have hsize : (L.map Chunk.size).getD 0 + p.size + n.size = (merged L p (some n)).size := rfl
      rw [Word32.add_eq (by omega), hsize]
      exact .pure (hQ h₂ fl₂ (hu.loose_joined hA hfl₁ hl₂ he₂ hh₂ hfl₂ hwords₂) hord₂)

/-! ## Shrinking -/

/-- The end of the heap after the release of a chunk at `b` that reaches the end. -/
def trimEnd (b : ℕ) : ℕ :=
  max 17825792 (((if b % 4096 = 0 then b else b + 16) + 4095) / 4096 * 4096)

/-- What is left of the free chunk `F` in a heap that ended at `e`, and where the heap ends then. -/
def trim (F : Chunk) (e : ℕ) : List Chunk × ℕ :=
  if F.addr + F.size ≠ e then ([F], e)
  else if trimEnd F.addr ≤ F.addr then ([], trimEnd F.addr)
  else ([⟨F.addr, trimEnd F.addr - F.addr, false⟩], trimEnd F.addr)

/-- The heap with another end. -/
def cut (h : Heap) (e : ℕ) : Heap := { h with endAddr := e }

@[simp] theorem cut_endAddr : (h.cut e).endAddr = e := rfl

@[simp] theorem cut_head : (h.cut e).head = h.head := rfl

@[simp] theorem cut_mem : (h.cut e).mem = h.mem := rfl

theorem trimEnd_bounds (hs : h.Sane) {b : ℕ} (hlo : 16777216 ≤ b) (hlt : b + 16 < h.endAddr) :
    HeapEndOk (trimEnd b) ∧ trimEnd b ≤ h.endAddr ∧ (trimEnd b = b ∨ b + 16 ≤ trimEnd b) := by
  have hb := hs.bounds
  unfold HeapEndOk heapStart heapMinSize heapMaxAddr trimEnd
  split_ifs with h0 <;> omega

theorem contractEnd_eq (hs : h.Sane) {n : ℕ} (hn : n < h.endAddr - 16777216) :
    contractEnd h.endAddr n = .ok (max 17825792 (16777216 + (n + 4095) / 4096 * 4096)) := by
  have hb := hs.bounds
  have hval : Word32.add heapStart (if alignHeapSize n < heapMinSize then heapMinSize else
      alignHeapSize n) = max 17825792 (16777216 + (n + 4095) / 4096 * 4096) := by
    rw [alignHeapSize_eq (by omega)]
    unfold heapMinSize heapStart
    split_ifs with h1
    · rw [Word32.add_eq (by omega)]; omega
    · rw [Word32.add_eq (by omega)]; omega
  unfold contractEnd
  rw [show Word32.sub h.endAddr heapStart = h.endAddr - 16777216 from
    Word32.sub_eq (by omega) (by unfold heapStart; omega), decide_eq_true hn]
  dsimp only
  rw [hval]
  rfl

theorem contractEnd_trim (hs : h.Sane) {b : ℕ} (hlo : 16777216 ≤ b) (hlt : b + 16 < h.endAddr) :
    contractEnd h.endAddr (if (b - 16777216) % 4096 ≠ 0 then b - 16777216 + 16
      else b - 16777216) = .ok (trimEnd b) := by
  unfold trimEnd
  by_cases h0 : b % 4096 = 0
  · rw [if_neg (by omega), if_pos h0, contractEnd_eq hs (by omega)]
    congr 2
    omega
  · rw [if_pos (by omega), if_neg h0, contractEnd_eq hs (by omega)]
    congr 2
    omega

theorem contractEnd_small (hs : h.Sane) {b : ℕ} (hlt : b + 16 = h.endAddr) :
    ∃ x, contractEnd h.endAddr (if (b - 16777216) % 4096 ≠ 0 then b - 16777216 + 16
      else b - 16777216) = .error x := by
  have hb := hs.bounds
  have hsub : Word32.sub h.endAddr heapStart = h.endAddr - 16777216 :=
    Word32.sub_eq (by omega) (by unfold heapStart; omega)
  unfold contractEnd
  rw [hsub, if_pos (by omega), decide_eq_false (by omega)]
  exact ⟨_, rfl⟩

/-- **Writing the footer, or shrinking the heap.** -/
theorem wp_trimTop (hs : h.Sane) {b size : ℕ} (hlo : 16777216 ≤ b) (hb8 : b % 8 = 0)
    (h16 : 16 ≤ size) (h8 : size % 8 = 0) (hle : b + size ≤ h.endAddr)
    (hW : b + size ≠ h.endAddr → W (b + size)) (hsmall : b + size = h.endAddr → size = 16 → err)
    (hU : b + size = h.endAddr → 16 < size → U (trimEnd b) (h.endAddr - trimEnd b))
    {Q : ℕ × ℕ → Heap → Prop}
    (hfoot : b + size ≠ h.endAddr → Q (b, size) (h.write (b + size) size))
    (hcut : b + size = h.endAddr → 16 < size →
      Q (if trimEnd b ≤ b then (0, 0) else (b, trimEnd b - b)) (h.cut (trimEnd b))) :
    Wp (Allowed h.head W U S M) err (trimTop env b size) Q h := by
  have hb := hs.bounds
  unfold trimTop
  refine .bind (.get ?_)
  rw [Word32.add_eq (show b + size < 4294967296 by omega)]
  by_cases htop : b + size = h.endAddr
  · rw [if_pos htop]
    dsimp only
    have hsub : Word32.sub h.endAddr heapStart = h.endAddr - 16777216 :=
      Word32.sub_eq (by omega) (by unfold heapStart; omega)
    have hsubb : Word32.sub b heapStart = b - 16777216 :=
      Word32.sub_eq (by omega) (by unfold heapStart; omega)
    have hadd : Word32.add (b - 16777216) minChunkSize = b - 16777216 + 16 :=
      Word32.add_eq (show b - 16777216 + 16 < 4294967296 by omega)
    rw [hsub, hsubb, hadd]
    unfold contractUnlocked
    by_cases h17 : size = 16
    · obtain ⟨x, hx⟩ := contractEnd_small hs (show b + 16 = h.endAddr by omega)
      refine .bind (.bind (.get (.bind (.lift (fun a ha => ?_) fun _ _ => hsmall htop h17))))
      rw [show pageSize = 4096 from rfl, hx] at ha
      cases ha
    · obtain ⟨hok, htle, htb⟩ := trimEnd_bounds hs hlo (show b + 16 < h.endAddr by omega)
      have hok' : trimEnd b % 4096 = 0 ∧ 17825792 ≤ trimEnd b ∧ trimEnd b ≤ 33554432 := hok
      have hdone := hcut htop (by omega)
      refine .bind (.bind (.get (.bind (.lift (fun a ha => ?_) fun x hx => ?_))))
      · rw [show pageSize = 4096 from rfl,
          contractEnd_trim hs hlo (show b + 16 < h.endAddr by omega)] at ha
        cases ha
        refine .bind (.modify ?_)
        dsimp only
        have hsz : Word32.sub h.endAddr (trimEnd b) = h.endAddr - trimEnd b :=
          Word32.sub_eq (by omega) htle
        have hnew : Word32.sub (trimEnd b) heapStart = trimEnd b - 16777216 :=
          Word32.sub_eq (by omega) (by unfold heapStart; omega)
        have hold : Word32.sub (h.endAddr - 16777216) (trimEnd b - 16777216) =
            h.endAddr - trimEnd b := by
          rw [Word32.sub_eq (by omega) (by omega)]
          omega
        -- how much is left of the chunk
        have hrest : Wp (Allowed h.head W U S M) err
            (if Word32.sub (h.endAddr - 16777216) (trimEnd b - 16777216) < size then
              pure (b, Word32.sub size (Word32.sub (h.endAddr - 16777216) (trimEnd b - 16777216)))
            else pure (0, 0) : H (ℕ × ℕ)) Q (h.cut (trimEnd b)) := by
          rw [hold]
          by_cases hleft : trimEnd b ≤ b
          · rw [if_pos hleft] at hdone
            rw [if_neg (by omega)]
            exact .pure hdone
          · rw [if_neg hleft] at hdone
            rw [if_pos (by omega), Word32.sub_eq (show size < 4294967296 by omega) (by omega),
              show size - (h.endAddr - trimEnd b) = trimEnd b - b by omega]
            exact .pure hdone
        rw [hsz, hnew]
        refine .ite (fun _ => .pure hrest) fun _ => ?_
        exact .bind (.emit (hU htop (by omega)) (.pure hrest))
      · rw [show pageSize = 4096 from rfl,
          contractEnd_trim hs hlo (show b + 16 < h.endAddr by omega)] at hx
        cases hx
  · rw [if_neg htop]
    unfold setFoot
    rw [Word32.add_eq (show b + size < 4294967296 by omega)]
    exact .bind (wp_store hs (Or.inl ⟨by unfold heapStart; omega, by omega⟩) (Or.inl (hW htop))
      (.pure (hfoot htop)))

theorem Listed.cut (hl : Listed h fl) (he : HeapEndOk e) (hle : ∀ a ∈ fl, a + 16 ≤ e) :
    Listed (h.cut e) fl :=
  ⟨⟨hl.sane.head_pos, hl.sane.head_aligned, hl.sane.head_low, he⟩, hl.ring, hl.nodup, hl.apart,
    fun a ha => ⟨(hl.range a ha).1, (hl.range a ha).2.1, hle a ha⟩⟩

/-- More tags that are not vouched for. -/
theorem Arena.weaken {Zp' Zf' : ℕ → Prop} (hA : Arena h cs fl Zp Zf)
    (hZp : ∀ c ∈ cs, Zp c.addr → Zp' c.addr) (hZf : ∀ c ∈ cs, Zf c.addr → Zf' c.addr) :
    Arena h cs fl Zp' Zf' :=
  ⟨hA.listed, hA.tiles, ⟨hA.tagged.shown,
    fun x hx y hy hxy hz => hA.tagged.pin x hx y hy hxy fun h => hz (hZp y hy h),
    fun x hx y hy hxy hu hz => hA.tagged.foot x hx y hy hxy hu fun h => hz (hZf y hy h),
    hA.tagged.first⟩, hA.apart, hA.free⟩

/-- The last chunks are gone. -/
theorem Arena.dropTop {mid : List Chunk} (hA : Arena h (xs ++ mid ++ []) fl Zp Zf)
    (hl : Listed h' fl') (hx : Tiles 16777216 xs h'.endAddr)
    (hkeep : ∀ c ∈ xs, h'.mem.read32 (c.addr + 4) = h.mem.read32 (c.addr + 4) ∧
      h'.mem.read32 c.addr = h.mem.read32 c.addr)
    (hfl : ∀ z, z ∈ fl' ↔ z ∈ fl ∧ ∀ d ∈ mid, d.addr ≠ z) : Arena h' xs fl' Zp Zf := by
  have hold : ∀ c ∈ xs, c ∈ xs ++ mid ++ [] := fun c hc => by simp [hc]
  have hfree : FreeIs fl' (xs ++ [] ++ []) := by
    refine hA.free.replace hA.tiles fun z => ?_
    rw [hfl]
    simp
  have htag : ∀ c ∈ xs, hsize h'.mem c.addr = hsize h.mem c.addr ∧
      hused h'.mem c.addr = hused h.mem c.addr ∧ hpin h'.mem c.addr = hpin h.mem c.addr := by
    intro c hc
    unfold hsize hused hpin
    rw [(hkeep c hc).1]
    exact ⟨rfl, rfl, rfl⟩
  refine ⟨hl, hx, ⟨fun c hc => ?_, fun x hx y hy hxy hz => ?_, fun x hx y hy hxy hu hz => ?_,
    fun y hy hys => ?_⟩, fun x hx y hy hxy => hA.apart x (hold x hx) y (hold y hy) hxy, ?_⟩
  · rw [(htag c hc).1, (htag c hc).2.1]
    exact hA.tagged.shown c (hold c hc)
  · rw [(htag y hy).2.2]
    exact hA.tagged.pin x (hold x hx) y (hold y hy) hxy hz
  · rw [(hkeep y hy).2]
    exact hA.tagged.foot x (hold x hx) y (hold y hy) hxy hu hz
  · rw [(htag y hy).2.2]
    exact hA.tagged.first y (hold y hy) hys
  · rw [List.append_nil, List.append_nil] at hfree
    exact hfree

/-- The list without the merged chunks. -/
theorem Loose.list_mid {h₂ : Heap} {fl₂ : List ℕ} (hA : Around h xs L p R ys fl Zp Zf)
    (hl : Loose h h₂ L p R fl fl₂ Zp) (z : ℕ) :
    z ∈ fl₂ ↔ z ∈ fl ∧ ∀ d ∈ L.toList ++ [p] ++ R.toList, d.addr ≠ z := by
  rw [hl.list]
  simp only [List.mem_append, Option.mem_toList, List.mem_singleton]
  constructor
  · rintro ⟨h1, h2, h3⟩
    refine ⟨h1, ?_⟩
    rintro d ((hd | rfl) | hd) rfl
    · exact h2 d hd rfl
    · obtain ⟨c, hc, hca, hcu⟩ := (hA.arena.free _).1 h1
      have hcd := hA.arena.tiles.eq_of_addr hc (show d ∈ _ by simp) hca
      rw [hcd, hA.used] at hcu
      cases hcu
    · exact h3 d hd rfl
  · rintro ⟨h1, h2⟩
    exact ⟨h1, fun x hx => (h2 x (Or.inl (Or.inl hx))).symm, fun y hy => (h2 y (Or.inr hy)).symm⟩

/-- The chunks still listed are outside the merged one. -/
theorem Loose.outside {h₂ : Heap} {fl₂ : List ℕ} (hA : Around h xs L p R ys fl Zp Zf)
    (hl : Loose h h₂ L p R fl fl₂ Zp) {x : ℕ} (hx : x ∈ fl₂) : x + 16 ≤ (merged L p R).addr ∨
      (merged L p R).addr + (merged L p R).size ≤ x := by
  have hP := places hA.arena.tiles
  obtain ⟨h1, h2⟩ := (hl.list_mid hA x).1 hx
  obtain ⟨c, hc, rfl, _⟩ := (hA.arena.free x).1 h1
  rw [List.mem_append, List.mem_append] at hc
  rcases hc with (hc | hc) | hc
  · have := hP.xs.mem hc
    omega
  · exact absurd rfl (h2 c hc)
  · have := hP.ys.mem hc
    omega

/-- The tags of the other chunks. -/
theorem Loose.keep {h₂ : Heap} {fl₂ : List ℕ} (hA : Around h xs L p R ys fl Zp Zf)
    (hl : Loose h h₂ L p R fl fl₂ Zp) {c : Chunk} (hc : c ∈ xs ++ ys)
    (hne : c.addr ≠ (merged L p R).addr + (merged L p R).size) :
    h₂.mem.read32 (c.addr + 4) = h.mem.read32 (c.addr + 4) ∧
      h₂.mem.read32 c.addr = h.mem.read32 c.addr := by
  have hc' : c ∈ xs ++ (L.toList ++ [p] ++ R.toList) ++ ys := by
    simp only [List.mem_append] at hc ⊢
    tauto
  have hb := hA.arena.mem_bounds hc'
  have hm := hA.merged_bounds
  constructor
  · exact hl.words _ (by omega) (by omega) (by omega)
      (fun x hx => (hA.arena.tags_ne_links hc' hx).2.2) (by omega)
  · refine hl.words _ (by omega) (by omega) (by omega) (fun x hx => ?_) (by omega)
    have := hA.arena.tags_ne_links hc' hx
    exact ⟨this.1, this.2.1⟩

/-- The chunks after a release in the middle of the heap. -/
theorem Arena.release {h₂ : Heap} {fl₂ : List ℕ} (hA : Around h xs L p R ys fl Zp Zf)
    (hL : Loose h h₂ L p R fl fl₂ Zp) (hl : Listed h' fl')
    (htop : (merged L p R).addr + (merged L p R).size ≠ h.endAddr)
    (hend : h'.endAddr = h.endAddr) (hfl : ∀ z, z ∈ fl' ↔ z = (merged L p R).addr ∨ z ∈ fl₂)
    (hhead : h'.mem.read32 ((merged L p R).addr + 4) = (merged L p R).size + 1)
    (hfoot : h'.mem.read32 ((merged L p R).addr + (merged L p R).size) = (merged L p R).size)
    (hkeep : ∀ c ∈ xs ++ ys, h'.mem.read32 (c.addr + 4) = h₂.mem.read32 (c.addr + 4) ∧
      (c.addr ≠ (merged L p R).addr + (merged L p R).size →
        h'.mem.read32 c.addr = h₂.mem.read32 c.addr)) :
    Arena h' (xs ++ [merged L p R] ++ ys) fl' Zp
      (fun z => Zf z ∧ z ≠ (merged L p R).addr + (merged L p R).size) := by
  have hP := places hA.arena.tiles
  obtain ⟨hlo, hb8, hsz, hs8, hle⟩ := hA.merged_bounds
  have hp16 := hP.size.1
  have hpin : hpin h'.mem (merged L p R).addr = true := hpin_of_header hhead hs8 rfl
  refine hA.arena.replaceOne hl hP.xs (by omega) hs8 (by rw [hend]; exact hP.ys)
    (fun c hc hne => ?_) (fun c hc hcE => ?_) ?_ (fun x hx hxb => ?_) (fun _ => hpin)
    (fun z => ?_) (fun _ _ h => h) (fun z hz h => ⟨h, by omega⟩)
  · obtain ⟨h1, h2⟩ := hkeep c hc
    rw [h1, h2 hne]
    exact hL.keep hA hc hne
  · have hnext := hL.next c.addr hcE (by omega)
    have h1 := (hkeep c (List.mem_append_right _ hc)).1
    refine ⟨?_, ?_, fun hz => ?_, fun _ => ⟨fun hz => ?_, hA.after c hc hcE⟩⟩
    · unfold hsize
      rw [h1]
      omega
    · unfold hused
      rw [h1, hnext.1]
    · unfold Heap.hpin
      rw [h1, hnext.2 hz]
      rfl
    · rw [hcE, hfoot]
  · exact shown_of_header hhead hs8 (by decide) rfl
  · rw [hpin, hA.before x hx hxb]
    exact ⟨fun _ => rfl, fun hu => by cases hu⟩
  · rw [hfl, hL.list_mid hA]
    constructor
    · rintro (h1 | h1)
      · exact Or.inr ⟨h1, rfl⟩
      · exact Or.inl h1
    · rintro (h1 | h1)
      · exact Or.inr h1
      · exact Or.inl h1.1

/-- The chunks after a release at the top of the heap that leaves some of the chunk. -/
theorem Arena.releaseTop {h₂ : Heap} {fl₂ : List ℕ} (hA : Around h xs L p R [] fl Zp Zf)
    (hL : Loose h h₂ L p R fl fl₂ Zp) (hl : Listed h' fl') {size : ℕ} (h16 : 16 ≤ size)
    (h8 : size % 8 = 0)
    (hend : (merged L p R).addr + size = h'.endAddr)
    (hfl : ∀ z, z ∈ fl' ↔ z = (merged L p R).addr ∨ z ∈ fl₂)
    (hhead : h'.mem.read32 ((merged L p R).addr + 4) = size + 1)
    (hkeep : ∀ c ∈ xs, h'.mem.read32 (c.addr + 4) = h₂.mem.read32 (c.addr + 4) ∧
      h'.mem.read32 c.addr = h₂.mem.read32 c.addr) :
    Arena h' (xs ++ [⟨(merged L p R).addr, size, false⟩] ++ []) fl' Zp Zf := by
  have hP := places hA.arena.tiles
  have hpin : hpin h'.mem (merged L p R).addr = true := hpin_of_header hhead h8 rfl
  refine hA.arena.replaceOne (F := ⟨(merged L p R).addr, size, false⟩) hl hP.xs h16 h8 hend
    (fun c hc _ => ?_) (fun c hc => by cases hc) ?_ (fun x hx hxb => ?_) (fun _ => hpin)
    (fun z => ?_) (fun _ _ h => h) (fun _ _ h => h)
  · rw [List.append_nil] at hc
    have hcb := hP.xs.mem hc
    obtain ⟨h1, h2⟩ := hkeep c hc
    rw [h1, h2]
    exact hL.keep hA (by simp [hc]) (by omega)
  · exact shown_of_header hhead h8 (by decide) rfl
  · dsimp only at hxb ⊢
    rw [hpin, hA.before x hx hxb]
    exact ⟨fun _ => rfl, fun hu => by cases hu⟩
  · rw [hfl, hL.list_mid hA]
    constructor
    · rintro (h1 | h1)
      · exact Or.inr ⟨h1, rfl⟩
      · exact Or.inl h1
    · rintro (h1 | h1)
      · exact Or.inr h1
      · exact Or.inl h1.1

theorem and_three_word (w : ℕ) : w &&& 3 = w % 4 := Nat.and_two_pow_sub_one_eq_mod w 2

/-- The words of the merged chunk that are written. -/
theorem Around.words (hA : Around h xs L p R ys fl Zp Zf)
    (hW : ∀ z, MetaWord (xs ++ (L.toList ++ [p] ++ R.toList) ++ ys) z → W z)
    (hWp : ∀ z, p.addr + 4 ≤ z → z < p.addr + p.size + 4 → W z) :
    W ((merged L p R).addr + 4) ∧ W ((merged L p R).addr + 8) ∧ W ((merged L p R).addr + 12) ∧
      W ((merged L p R).addr + (merged L p R).size) := by
  have hP := places hA.arena.tiles
  have hp : p ∈ xs ++ (L.toList ++ [p] ++ R.toList) ++ ys := by simp
  obtain ⟨hplo, hp8, hp16, hps8, hphi, hmax⟩ := hA.arena.mem_bounds hp
  have hWb : W ((merged L p R).addr + 4) ∧ W ((merged L p R).addr + 8) ∧
      W ((merged L p R).addr + 12) := by
    cases hL : L with
    | none =>
      rw [← hL, ← hP.noleft hL]
      exact ⟨hWp _ (by omega) (by omega), hWp _ (by omega) (by omega), hWp _ (by omega) (by omega)⟩
    | some x =>
      obtain ⟨h1, h2, h3, h4⟩ := hP.left x hL
      have hx : x ∈ xs ++ (L.toList ++ [p] ++ R.toList) ++ ys := by simp [hL]
      have hxu := hA.left x hL
      rw [← hL, ← h1]
      exact ⟨hW _ (Or.inl ⟨x, hx, rfl⟩), hW _ (Or.inr ⟨x, hx, hxu, by omega, by omega⟩),
        hW _ (Or.inr ⟨x, hx, hxu, by omega, by omega⟩)⟩
  refine ⟨hWb.1, hWb.2.1, hWb.2.2, ?_⟩
  cases hR : R with
  | none =>
    rw [← hR, ← hP.noright hR]
    exact hWp _ (by omega) (by omega)
  | some y =>
    obtain ⟨h1, h2, h3, h4⟩ := hP.right y hR
    have hy : y ∈ xs ++ (L.toList ++ [p] ++ R.toList) ++ ys := by simp [hR]
    rw [← hR, ← h4]
    exact hW _ (Or.inr ⟨y, hy, hA.right y hR, by omega, by omega⟩)

/-- The merged chunk gets its tags where another chunk follows. -/
theorem Loose.wp_enterFollowed {h₂ : Heap} {fl₂ : List ℕ} (hA : Around h xs L p R ys fl Zp Zf)
    (hloose : Loose h h₂ L p R fl fl₂ Zp)
    (htop : (merged L p R).addr + (merged L p R).size ≠ h.endAddr)
    (hWh : W ((merged L p R).addr + 4))
    (hW : ∀ x ∈ (merged L p R).addr :: fl₂, W (x + 8) ∧ W (x + 12)) {Q : Unit → Heap → Prop}
    (hQ : ∀ h' fl', Arena h' (xs ++ [merged L p R] ++ ys) fl' Zp
        (fun z => Zf z ∧ z ≠ (merged L p R).addr + (merged L p R).size) →
      h'.endAddr = h.endAddr → h'.head = h.head →
      (∀ c ∈ xs, h'.mem.read32 (c.addr + 4) = h.mem.read32 (c.addr + 4)) →
      (BySize h₂.mem fl₂ → BySize h'.mem fl') → Q () h') :
    Wp (Allowed h₂.head W U S M) err
      (setSizeAndPinuse env (merged L p R).addr (merged L p R).size >>= fun _ =>
        insertChunk env (merged L p R).addr) Q
      (h₂.write ((merged L p R).addr + (merged L p R).size) (merged L p R).size) := by
  have hP := places hA.arena.tiles
  obtain ⟨hlo, hb8, hsz, hs8, hle⟩ := hA.merged_bounds
  have hp16 := hP.size
  have hs := hA.arena.listed.sane.bounds
  have hs₂ := hloose.listed.sane
  have he₂ := hloose.endAddr
  have hout := fun x (hx : x ∈ fl₂) => hloose.outside hA hx
  obtain ⟨n, hn, hna⟩ : ∃ n ∈ ys, n.addr = (merged L p R).addr + (merged L p R).size := by
    have hy := hP.ys
    cases hys : ys with
    | nil =>
      rw [hys] at hy
      exact absurd hy htop
    | cons n ys' =>
      rw [hys] at hy
      exact ⟨n, List.mem_cons_self .., hy.1⟩
  have hnb := hA.arena.mem_bounds (c := n) (by simp [hn])
  have hfoot : ∀ c ∈ xs ++ ys, ∀ x ∈ fl₂, c.addr ≠ x + 8 ∧ c.addr ≠ x + 12 ∧
      c.addr + 4 ≠ x + 8 ∧ c.addr + 4 ≠ x + 12 := by
    intro c hc x hx
    refine hA.arena.tags_ne_links ?_ ((hloose.list x).1 hx).1
    simp only [List.mem_append] at hc ⊢
    tauto
  have hl₃ : Listed (h₂.write ((merged L p R).addr + (merged L p R).size) (merged L p R).size)
      fl₂ := by
    refine hloose.listed.write (by omega) (by omega) (not_listWord hs₂ (by omega) fun x hx => ?_)
    have := hfoot n (List.mem_append_right _ hn) x hx
    omega
  refine wp_enterChunk hl₃ hb8 hlo (by rw [write_endAddr]; omega) hs8 (by omega)
    (fun x hx => ?_) hWh hW ?_
  · have := hout x hx
    omega
  intro h' fl' hl' hend hhead hfl hhd hwords hord
  rw [write_endAddr] at hend
  have hread : ∀ z, 16777216 ≤ z → z % 4 = 0 → z < 4294967296 → z ≠ (merged L p R).addr + 4 →
      z ≠ (merged L p R).addr + 8 → z ≠ (merged L p R).addr + 12 →
      z ≠ (merged L p R).addr + (merged L p R).size →
      (∀ x ∈ fl₂, z ≠ x + 8 ∧ z ≠ x + 12) → h'.mem.read32 z = h₂.mem.read32 z := by
    intro z h1 h2 h3 h4 h5 h6 h7 h8
    rw [hwords z h1 h2 h3 h4 h5 h6 h8, read_write_ne (by omega) h2 h7 (by omega) h3]
  have hkeep : ∀ c ∈ xs ++ ys, h'.mem.read32 (c.addr + 4) = h₂.mem.read32 (c.addr + 4) ∧
      (c.addr ≠ (merged L p R).addr + (merged L p R).size →
        h'.mem.read32 c.addr = h₂.mem.read32 c.addr) := by
    intro c hc
    have hcb : 16777216 ≤ c.addr ∧ c.addr % 8 = 0 ∧ c.addr < 33554432 ∧
        (c.addr + 16 ≤ (merged L p R).addr ∨
          (merged L p R).addr + (merged L p R).size ≤ c.addr) := by
      have hcm := hA.arena.mem_bounds (c := c) (by
        simp only [List.mem_append] at hc ⊢
        tauto)
      rcases List.mem_append.1 hc with hc | hc
      · have := hP.xs.mem hc
        omega
      · have := hP.ys.mem hc
        omega
    have hfc := hfoot c hc
    exact ⟨hread _ (by omega) (by omega) (by omega) (by omega) (by omega) (by omega) (by omega)
        fun x hx => ⟨(hfc x hx).2.2.1, (hfc x hx).2.2.2⟩,
      fun hne => hread _ (by omega) (by omega) (by omega) (by omega) (by omega) (by omega) hne
        fun x hx => ⟨(hfc x hx).1, (hfc x hx).2.1⟩⟩
  refine hQ h' fl' (Arena.release hA hloose hl' htop (hend.trans he₂) hfl hhd ?_ hkeep)
    (hend.trans he₂) (hhead.trans hloose.head) (fun c hc => ?_)
    fun hb => hord (hloose.listed.bySize_write (by omega) (by omega) (fun x hx => ?_) hb)
  · rw [hwords _ (by omega) (by omega) (by omega) (by omega) (by omega) (by omega) fun x hx => ?_]
    · exact read_write_self (by omega)
    · have := hfoot n (List.mem_append_right _ hn) x hx
      omega
  · have hcb := hP.xs.mem hc
    rw [(hkeep c (List.mem_append_left _ hc)).1]
    exact (hloose.keep hA (List.mem_append_left _ hc) (by omega)).1
  · have := hloose.listed.range x hx
    omega

/-- At the top the free chunks end before the merged one. -/
theorem Loose.below {h₂ : Heap} {fl₂ : List ℕ} (hA : Around h xs L p R [] fl Zp Zf)
    (hloose : Loose h h₂ L p R fl fl₂ Zp)
    (htop : (merged L p R).addr + (merged L p R).size = h.endAddr) :
    ∀ x ∈ fl₂, x + 16 ≤ (merged L p R).addr := by
  intro x hx
  have he₂ := hloose.endAddr
  have := hloose.outside hA hx
  have := hloose.listed.range x hx
  omega

/-- What is left of the merged chunk at the top gets its tags. -/
theorem Loose.wp_enterTop {h₂ : Heap} {fl₂ : List ℕ} (hA : Around h xs L p R [] fl Zp Zf)
    (hloose : Loose h h₂ L p R fl fl₂ Zp)
    (htop : (merged L p R).addr + (merged L p R).size = h.endAddr) (h17 : 16 < (merged L p R).size)
    (hgo : ¬ trimEnd (merged L p R).addr ≤ (merged L p R).addr)
    (hWh : W ((merged L p R).addr + 4))
    (hW : ∀ x ∈ (merged L p R).addr :: fl₂, W (x + 8) ∧ W (x + 12)) {Q : Unit → Heap → Prop}
    (hQ : ∀ h' fl', Arena h' (xs ++ [⟨(merged L p R).addr,
        trimEnd (merged L p R).addr - (merged L p R).addr, false⟩] ++ []) fl' Zp Zf →
      h'.endAddr = trimEnd (merged L p R).addr → h'.head = h.head →
      (∀ c ∈ xs, h'.mem.read32 (c.addr + 4) = h₂.mem.read32 (c.addr + 4)) →
      (BySize h₂.mem fl₂ → BySize h'.mem fl') → Q () h') :
    Wp (Allowed h₂.head W U S M) err
      (setSizeAndPinuse env (merged L p R).addr
        (trimEnd (merged L p R).addr - (merged L p R).addr) >>= fun _ =>
        insertChunk env (merged L p R).addr) Q (h₂.cut (trimEnd (merged L p R).addr)) := by
  have hP := places hA.arena.tiles
  have hs := hA.arena.listed.sane
  have hbounds := hs.bounds
  obtain ⟨hlo, hb8, hsz, hs8, hle⟩ := hA.merged_bounds
  obtain ⟨hok, htle, htb⟩ := trimEnd_bounds hs hlo (show (merged L p R).addr + 16 < h.endAddr by
    omega)
  have hok' : trimEnd (merged L p R).addr % 4096 = 0 ∧ _ := hok
  have hbelow := hloose.below hA htop
  have hl₃ : Listed (h₂.cut (trimEnd (merged L p R).addr)) fl₂ :=
    hloose.listed.cut hok fun x hx => by
      have := hbelow x hx
      omega
  refine wp_enterChunk (h := h₂.cut (trimEnd (merged L p R).addr)) hl₃ hb8 hlo
    (by rw [cut_endAddr]; omega) (by omega) (by omega) (fun x hx => Or.inl (hbelow x hx))
    hWh hW ?_
  intro h' fl' hl' hend hhead hfl hhd hwords hord
  rw [cut_endAddr] at hend
  have hkeep : ∀ c ∈ xs, h'.mem.read32 (c.addr + 4) = h₂.mem.read32 (c.addr + 4) ∧
      h'.mem.read32 c.addr = h₂.mem.read32 c.addr := by
    intro c hc
    have hcb := hP.xs.mem hc
    have hfc : ∀ x ∈ fl₂, _ := fun x hx => hA.arena.tags_ne_links (c := c) (by simp [hc])
      ((hloose.list x).1 hx).1
    exact ⟨hwords _ (by omega) (by omega) (by omega) (by omega) (by omega) (by omega)
        fun x hx => ⟨(hfc x hx).2.2.1, (hfc x hx).2.2.2⟩,
      hwords _ (by omega) (by omega) (by omega) (by omega) (by omega) (by omega)
        fun x hx => ⟨(hfc x hx).1, (hfc x hx).2.1⟩⟩
  exact hQ h' fl' (Arena.releaseTop hA hloose hl' (by omega) (by omega) (by omega) hfl hhd hkeep)
    hend (hhead.trans hloose.head) (fun c hc => (hkeep c hc).1) hord

/-- **`Heap::free`.** -/
theorem wp_freeUnlocked (hA : Around h xs L p R ys fl Zp Zf)
    (hW : ∀ z, MetaWord (xs ++ (L.toList ++ [p] ++ R.toList) ++ ys) z → W z)
    (hWp : ∀ z, p.addr + 4 ≤ z → z < p.addr + p.size + 4 → W z)
    (hsmall : (merged L p R).addr + (merged L p R).size = h.endAddr →
      (merged L p R).size = 16 → err)
    (hU : (merged L p R).addr + (merged L p R).size = h.endAddr → 16 < (merged L p R).size →
      U (trimEnd (merged L p R).addr) (h.endAddr - trimEnd (merged L p R).addr))
    {Q : Unit → Heap → Prop}
    (hQ : ∀ h' fl',
      ((merged L p R).addr + (merged L p R).size = h.endAddr → 16 < (merged L p R).size) →
      Arena h' (xs ++ (trim (merged L p R) h.endAddr).1 ++ ys) fl' Zp
        (fun z => Zf z ∧ z ≠ (merged L p R).addr + (merged L p R).size) →
      h'.endAddr = (trim (merged L p R) h.endAddr).2 → h'.head = h.head →
      (∀ c ∈ xs, h'.mem.read32 (c.addr + 4) = h.mem.read32 (c.addr + 4)) →
      (BySize h.mem fl → BySize h'.mem fl') → Q () h') :
    Wp (Allowed h.head W U S M) err (freeUnlocked env (p.addr + 8)) Q h := by
  have hP := places hA.arena.tiles
  have hs := hA.arena.listed.sane
  have hp : p ∈ xs ++ (L.toList ++ [p] ++ R.toList) ++ ys := by simp
  obtain ⟨hplo, hp8, hp16, hps8, hphi, hmax⟩ := hA.arena.mem_bounds hp
  obtain ⟨hlo, hb8, hsz, hs8, hle⟩ := hA.merged_bounds
  have hshown := hA.arena.tagged.shown p hp
  have hWl : ∀ x ∈ fl, W (x + 8) ∧ W (x + 12) := fun x hx =>
    (hA.arena.links_meta hx).imp (hW _) (hW _)
  obtain ⟨hW4, hW8, hW12, hWE⟩ := hA.words hW hWp
  unfold freeUnlocked
  rw [if_neg (by omega)]
  dsimp only
  rw [show Word32.sub (p.addr + 8) 8 = p.addr from
    (Word32.sub_eq (by omega) (by omega)).trans (by omega)]
  refine .bind (wp_chunksize hs hplo (by omega) ?_)
  rw [hshown.1]
  refine .bind (.get ?_)
  rw [if_pos (by unfold okAddress heapStart; simp; omega),
    show headOf p.addr = p.addr + 4 from Word32.add_eq (by omega)]
  refine .bind (wp_load hs (Or.inl ⟨by unfold heapStart; omega, by omega⟩) ?_)
  have hinuse : h.mem.read32 (p.addr + 4) &&& 3 ≠ 1 := by
    have := hshown.2
    rw [hA.used] at this
    have := of_decide_eq_true this
    rw [and_three_word]
    omega
  rw [if_pos hinuse, Word32.add_eq (show p.addr + p.size < 4294967296 by omega)]
  refine .bind (wp_mergePrev hA hWl ?_)
  intro h₁ fl₁ hu hfl₁ hord₁
  dsimp only
  rw [← hu.head]
  refine .bind (wp_mergeNext hA hu hfl₁ hWl (fun c hc => hW _ (Or.inl ⟨c, by simp [hc], rfl⟩)) ?_)
  intro h₂ fl₂ hloose hord₂
  have hs₂ := hloose.listed.sane
  have he₂ := hloose.endAddr
  have hout := fun x (hx : x ∈ fl₂) => hloose.outside hA hx
  have hWl₂ : ∀ x ∈ (merged L p R).addr :: fl₂, W (x + 8) ∧ W (x + 12) := by
    intro x hx
    rcases List.mem_cons.1 hx with rfl | hx
    · exact ⟨hW8, hW12⟩
    · exact hWl x ((hloose.list x).1 hx).1
  rw [hu.head, ← hloose.head]
  refine .bind (wp_trimTop hs₂ hlo hb8 (by omega) hs8 (by omega) (fun _ => hWE)
    (by rw [he₂]; exact hsmall) (by rw [he₂]; exact hU) ?_ ?_)
  · -- the merged chunk is followed by another one
    intro htop
    rw [he₂] at htop
    dsimp only
    rw [if_pos ⟨by omega, by omega⟩]
    have htrim : trim (merged L p R) h.endAddr = ([merged L p R], h.endAddr) := if_pos htop
    rw [htrim] at hQ
    refine hloose.wp_enterFollowed hA htop hW4 hWl₂ fun h' fl' hA' hend hhead hkeep hord => ?_
    exact hQ h' fl' (fun h => absurd h htop) hA' hend hhead hkeep fun hb => hord (hord₂ (hord₁ hb))
  · -- it ends the heap
    intro htop h17
    rw [he₂] at htop
    obtain rfl : ys = [] := by
      have hy := hP.ys
      cases hys : ys with
      | nil => rfl
      | cons n ys' =>
        rw [hys] at hy
        have := hy.mem (List.mem_cons_self ..)
        omega
    obtain ⟨hok, htle, htb⟩ := trimEnd_bounds hs hlo (show (merged L p R).addr + 16 < h.endAddr by
      omega)
    have hok' : trimEnd (merged L p R).addr % 4096 = 0 ∧ _ := hok
    have hgone : ∀ {h'' : Heap} {fl'' : List ℕ} {cs' : List Chunk}, h''.endAddr ≤ h.endAddr →
        Arena h'' cs' fl'' Zp Zf → Arena h'' cs' fl'' Zp
          (fun z => Zf z ∧ z ≠ (merged L p R).addr + (merged L p R).size) := by
      intro h'' fl'' cs' hend'' hA''
      refine hA''.weaken (fun _ _ h => h) fun c hc hz => ⟨hz, ?_⟩
      have := hA''.mem_bounds hc
      omega
    have hkeep : ∀ c ∈ xs, h₂.mem.read32 (c.addr + 4) = h.mem.read32 (c.addr + 4) ∧
        h₂.mem.read32 c.addr = h.mem.read32 c.addr := by
      intro c hc
      have := hP.xs.mem hc
      exact hloose.keep hA (by simp [hc]) (by omega)
    by_cases hgo : trimEnd (merged L p R).addr ≤ (merged L p R).addr
    · have htrim : trim (merged L p R) h.endAddr = ([], trimEnd (merged L p R).addr) := by
        unfold trim
        rw [if_neg (not_not_intro htop), if_pos hgo]
      rw [if_pos hgo]
      dsimp only
      rw [if_neg (by simp)]
      rw [htrim, List.append_nil, List.append_nil] at hQ
      have hl₃ : Listed (h₂.cut (trimEnd (merged L p R).addr)) fl₂ :=
        hloose.listed.cut hok fun x hx => by
          have := hloose.below hA htop x hx
          omega
      refine .pure (hQ _ fl₂ (fun _ => h17) (hgone (by rw [cut_endAddr]; omega) ?_) rfl hloose.head
        (fun c hc => (hkeep c hc).1) fun hb => hord₂ (hord₁ hb))
      refine Arena.dropTop hA.arena hl₃ ?_ hkeep (hloose.list_mid hA)
      rw [cut_endAddr, show trimEnd (merged L p R).addr = (merged L p R).addr by omega]
      exact hP.xs
    · have htrim : trim (merged L p R) h.endAddr =
          ([⟨(merged L p R).addr, trimEnd (merged L p R).addr - (merged L p R).addr, false⟩],
            trimEnd (merged L p R).addr) := by
        unfold trim
        rw [if_neg (not_not_intro htop), if_neg hgo]
      rw [if_neg hgo]
      dsimp only
      rw [if_pos ⟨by omega, by omega⟩]
      rw [htrim] at hQ
      refine hloose.wp_enterTop hA htop h17 hgo hW4 hWl₂ fun h' fl' hA' hend hhead hkeep' hord => ?_
      exact hQ h' fl' (fun _ => h17) (hgone (by omega) hA') hend hhead
        (fun c hc => (hkeep' c hc).trans (hkeep c hc).1) fun hb => hord (hord₂ (hord₁ hb))

/-! ## Exact merging -/

/-- `free(p)` returns, and `p` and its free neighbours have become one free chunk, of which the
shrinking of the heap has left a part, or nothing, at the top. -/
def FreeMerges (env : HeapEnv) (h : Heap) (cs : List Chunk) (fl : List ℕ) (p : Chunk) : Prop :=
  ∃ xs L R ys, cs = xs ++ (L.toList ++ [p] ++ R.toList) ++ ys ∧
    Around h xs L p R ys fl Nowhere Nowhere ∧
    ∃ h' fl', (free env (p.addr + 8) h).result = .ok ((), h') ∧
      Wf h' (xs ++ (trim (merged L p R) h.endAddr).1 ++ ys) fl' ∧
      h'.endAddr = (trim (merged L p R) h.endAddr).2

/-- The chunk is a minimal one at the end of the heap, with no free chunk before it. -/
def StuckAtTop (h : Heap) (cs : List Chunk) (p : Chunk) : Prop :=
  p.size = 16 ∧ p.addr + p.size = h.endAddr ∧ ∀ x ∈ cs, x.addr + x.size = p.addr → x.used = true

/-- The merged chunk is minimal at the end of the heap exactly if the released one was. -/
theorem Around.stuck_iff (hA : Around h xs L p R ys fl Zp Zf) :
    StuckAtTop h (xs ++ (L.toList ++ [p] ++ R.toList) ++ ys) p ↔
      (merged L p R).addr + (merged L p R).size = h.endAddr ∧ (merged L p R).size = 16 := by
  have hP := places hA.arena.tiles
  have hm := hA.merged_bounds
  have hp := hA.arena.mem_bounds (c := p) (by simp)
  constructor
  · rintro ⟨h1, h2, h3⟩
    have hL : L = none := by
      cases hL : L with
      | none => rfl
      | some x =>
        have hx := h3 x (by simp [hL]) (hP.left x hL).2.1
        rw [hA.left x hL] at hx
        cases hx
    have hR : R = none := by
      cases hR : R with
      | none => rfl
      | some y =>
        have := hP.right y hR
        omega
    subst hL hR
    simp only [merged, Option.map_none, Option.getD_none, Nat.zero_add, Nat.add_zero]
    exact ⟨h2, h1⟩
  · rintro ⟨h1, h2⟩
    have hR : R = none := by
      cases hR : R with
      | none => rfl
      | some y =>
        have h3 := hP.right y hR
        have : (merged L p R).addr ≤ p.addr := by
          cases hL : L with
          | none => rw [← hL, hP.noleft hL]
          | some x =>
            have := hP.left x hL
            rw [← hL]
            omega
        omega
    have hL : L = none := by
      cases hL : L with
      | none => rfl
      | some x =>
        have h3 := hP.left x hL
        have h4 := hP.noright hR
        omega
    have hpl := hP.noleft hL
    refine ⟨by omega, by have := hP.noright hR; omega, fun x hx hxp => ?_⟩
    rw [List.mem_append, List.mem_append] at hx
    rcases hx with (hx | hx) | hx
    · exact hA.before x hx (by omega)
    · rw [hL, hR] at hx
      simp only [Option.toList_none, List.nil_append, List.append_nil, List.mem_singleton] at hx
      rw [hx] at hxp
      omega
    · have := hP.ys.mem hx
      omega

/-- **Releasing a chunk merges exactly**, except for a minimal one that is stuck at the top. -/
theorem free_merges_iff (hA : Wf h cs fl) (hp : p ∈ cs) (hused : p.used = true) :
    FreeMerges env h cs fl p ↔ ¬ StuckAtTop h cs p := by
  obtain ⟨xs, L, R, ys, rfl, hAr⟩ := hA.exists_around hp hused id id id
  constructor
  · rintro ⟨_, _, _, _, _, _, h', _, hres, _⟩ hstuck
    obtain ⟨h1, h2⟩ := hAr.stuck_iff.1 hstuck
    -- the release cannot return
    have hnever : Wp (Allowed h.head (fun _ => True) (fun _ _ => True) (fun _ => True) True) True
        (free env (p.addr + 8)) (fun _ _ => False) h :=
      wp_freeUnlocked hAr (fun _ _ => trivial) (fun _ _ _ => trivial) (fun _ _ => trivial)
        (fun _ _ => trivial) fun _ _ h17 => absurd (h17 h1) (by omega)
    exact hnever.returns hres
  · intro hfree
    have hdone : Wp (Allowed h.head (fun _ => True) (fun _ _ => True) (fun _ => True) True) False
        (free env (p.addr + 8)) (fun _ h' => ∃ fl', Wf h'
          (xs ++ (trim (merged L p R) h.endAddr).1 ++ ys) fl' ∧
          h'.endAddr = (trim (merged L p R) h.endAddr).2) h := by
      refine wp_freeUnlocked hAr (fun _ _ => trivial) (fun _ _ _ => trivial)
        (fun h1 h2 => hfree (hAr.stuck_iff.2 ⟨h1, h2⟩)) (fun _ _ => trivial) ?_
      intro h' fl' _ hA' hend _ _ _
      exact ⟨fl', hA'.weaken (fun _ _ h => h) fun _ _ h => h.1, hend⟩
    obtain ⟨_, h', hres, fl', hA', hend⟩ := hdone.total
    exact ⟨xs, L, R, ys, rfl, hAr, h', fl', hres, hA', hend⟩

/-- Nothing is mapped but the identity window, and new pages are zero. -/
def bareEnv : HeapEnv where
  ext v := decide (v < 1024)
  ext_identity := fun _ hv => decide_eq_true hv
  frames used pages := decide (used + pages ≤ 8192)
  fill _ := 0

/-- A heap of the initial size with a minimal chunk at its end. -/
def fullHeap : Heap where
  endAddr := 17825792
  head := 4096
  mem := (((Mem.write32 (fun _ => 0) 4096 4096).write32 4100 4096).write32 16777220
    (1048560 + 3)).write32 17825780 (16 + 3)

def fullChunks : List Chunk := [⟨16777216, 1048560, true⟩, ⟨17825776, 16, true⟩]

theorem free_merges_fullHeap :
    Wf fullHeap fullChunks [] ∧ FreeMerges bareEnv fullHeap fullChunks [] ⟨16777216, 1048560, true⟩ := by
  have hA : Wf fullHeap fullChunks [] := by decide +kernel
  refine ⟨hA, (free_merges_iff hA (by decide) rfl).2 ?_⟩
  rintro ⟨h1, _⟩
  exact absurd h1 (by decide)

/-- Releasing the minimal chunk at the end of the heap fails an assertion. -/
theorem free_at_top_asserts : Wf fullHeap fullChunks [] ∧ ⟨17825776, 16, true⟩ ∈ fullChunks ∧
    halts (free bareEnv (17825776 + 8)) fullHeap =
      some (.assertion "newSize < this->endAddr - this->startAddr") ∧
    ¬ FreeMerges bareEnv fullHeap fullChunks [] ⟨17825776, 16, true⟩ := by
  have hhalt : halts (free bareEnv (17825776 + 8)) fullHeap =
      some (.assertion "newSize < this->endAddr - this->startAddr") := by decide +kernel
  refine ⟨by decide +kernel, by decide, hhalt, ?_⟩
  rintro ⟨_, _, _, _, _, _, _, _, hres, _⟩
  exact result_ne_ok (by rw [hhalt]; rfl) hres

end

end Heap

end Ospp
