import Ospp.Mm.HeapList

/-!
# Chunks and boundary tags

The heap as a sequence of chunks. `Tiles a cs e` says that the chunks `cs` fill `[a, e)`; `Tagged`
says what the headers and footers in memory tell about them. An operation replaces a few
neighbouring chunks by others; `Tagged.replace` is the one place where the tags of the rest are
carried over.

An operation may leave a tag wrong for a while, and some leave it wrong for good. `Tagged` therefore
has two sets of addresses, of the chunks whose `PINUSE` bit and whose `prevFoot` are not vouched
for.
-/

namespace Ospp

open Cmd

structure Chunk where
  addr : ℕ
  size : ℕ
  used : Bool
  deriving DecidableEq, Repr

/-- The chunks fill `[a, e)`. -/
def Tiles : ℕ → List Chunk → ℕ → Prop
  | a, [], e => a = e
  | a, c :: cs, e => c.addr = a ∧ 16 ≤ c.size ∧ c.size % 8 = 0 ∧ Tiles (a + c.size) cs e

instance : (a : ℕ) → (cs : List Chunk) → (e : ℕ) → Decidable (Tiles a cs e)
  | a, [], e => inferInstanceAs (Decidable (a = e))
  | a, c :: cs, e =>
    haveI : Decidable (Tiles (a + c.size) cs e) := instDecidableTiles (a + c.size) cs e
    inferInstanceAs (Decidable (c.addr = a ∧ 16 ≤ c.size ∧ c.size % 8 = 0 ∧ Tiles _ cs e))

section

variable {a b e : ℕ} {xs ys cs : List Chunk} {c x y : Chunk}

theorem tiles_append : Tiles a (xs ++ ys) e ↔ ∃ b, Tiles a xs b ∧ Tiles b ys e := by
  induction xs generalizing a with
  | nil => exact ⟨fun h => ⟨a, rfl, h⟩, fun ⟨b, h1, h2⟩ => (by cases h1; exact h2)⟩
  | cons c xs ih =>
    show _ ∧ _ ∧ _ ∧ Tiles (a + c.size) (xs ++ ys) e ↔ _
    rw [ih]
    constructor
    · rintro ⟨h1, h2, h3, b, h4, h5⟩
      exact ⟨b, ⟨h1, h2, h3, h4⟩, h5⟩
    · rintro ⟨b, ⟨h1, h2, h3, h4⟩, h5⟩
      exact ⟨h1, h2, h3, b, h4, h5⟩

theorem Tiles.le (h : Tiles a cs e) : a ≤ e := by
  induction cs generalizing a with
  | nil => exact le_of_eq h
  | cons c cs ih =>
    obtain ⟨_, _, _, h4⟩ := h
    have := ih h4
    omega

/-- Where a chunk lies. -/
theorem Tiles.mem (h : Tiles a cs e) (hc : c ∈ cs) : a ≤ c.addr ∧ c.addr + c.size ≤ e ∧
    16 ≤ c.size ∧ c.size % 8 = 0 ∧ c.addr % 8 = a % 8 := by
  induction cs generalizing a with
  | nil => cases hc
  | cons d cs ih =>
    obtain ⟨h1, h2, h3, h4⟩ := h
    rcases List.mem_cons.1 hc with rfl | hc
    · have := h4.le
      omega
    · have := ih h4 hc
      omega

/-- Two chunks are the same, or one ends before the other starts. -/
theorem Tiles.sep (h : Tiles a cs e) (hx : x ∈ cs) (hy : y ∈ cs) :
    x = y ∨ x.addr + x.size ≤ y.addr ∨ y.addr + y.size ≤ x.addr := by
  induction cs generalizing a with
  | nil => cases hx
  | cons d cs ih =>
    obtain ⟨h1, h2, h3, h4⟩ := h
    rcases List.mem_cons.1 hx with rfl | hx' <;> rcases List.mem_cons.1 hy with rfl | hy'
    · exact Or.inl rfl
    · have := h4.mem hy'
      omega
    · have := h4.mem hx'
      omega
    · exact ih h4 hx' hy'

theorem Tiles.eq_of_addr (h : Tiles a cs e) (hx : x ∈ cs) (hy : y ∈ cs)
    (hxy : x.addr = y.addr) : x = y := by
  rcases h.sep hx hy with h' | h' | h'
  · exact h'
  · have := h.mem hx
    omega
  · have := h.mem hy
    omega

theorem Tiles.nodup (h : Tiles a cs e) : cs.Nodup := by
  induction cs generalizing a with
  | nil => exact List.nodup_nil
  | cons d cs ih =>
    obtain ⟨h1, h2, h3, h4⟩ := h
    refine List.nodup_cons.2 ⟨fun hm => ?_, ih h4⟩
    have := h4.mem hm
    omega

/-- Chunks in different parts of the heap start at different addresses. -/
theorem Tiles.addr_ne {mid : List Chunk} (ht : Tiles a (xs ++ mid ++ ys) e) {b : Chunk}
    (hb : b ∈ mid) (hc : c ∈ xs ∨ c ∈ ys) : c.addr ≠ b.addr := by
  intro heq
  have hcm : c ∈ xs ++ mid ++ ys := by
    rcases hc with hc | hc <;> simp [hc]
  have hcb := ht.eq_of_addr hcm (by simp [hb]) heq
  subst hcb
  have hn := ht.nodup
  rw [List.nodup_append, List.nodup_append] at hn
  rcases hc with hc | hc
  · exact hn.1.2.2 c hc c hb rfl
  · exact hn.2.2 c (List.mem_append_right _ hb) c hc rfl

/-- The chunks before and after a given one. -/
theorem Tiles.split (h : Tiles a (xs ++ c :: ys) e) : Tiles a xs c.addr ∧ 16 ≤ c.size ∧
    c.size % 8 = 0 ∧ Tiles (c.addr + c.size) ys e := by
  obtain ⟨b, h1, h2, h3, h4, h5⟩ := tiles_append.1 h
  subst h2
  exact ⟨h1, h3, h4, h5⟩

/-- A chunk that does not start the heap has one before it. -/
theorem Tiles.exists_prev (h : Tiles a cs e) (hc : c ∈ cs) (hne : c.addr ≠ a) :
    ∃ x ∈ cs, x.addr + x.size = c.addr := by
  induction cs generalizing a with
  | nil => cases hc
  | cons d cs ih =>
    obtain ⟨h1, h2, h3, h4⟩ := h
    rcases List.mem_cons.1 hc with rfl | hc'
    · exact absurd h1 hne
    · by_cases hd : c.addr = a + d.size
      · exact ⟨d, List.mem_cons_self .., by omega⟩
      · obtain ⟨x, hx, hxc⟩ := ih h4 hc' hd
        exact ⟨x, List.mem_cons_of_mem _ hx, hxc⟩

/-- A nonempty sequence has a last chunk. -/
theorem Tiles.exists_last (h : Tiles a cs e) (hne : e ≠ a) : ∃ x ∈ cs, x.addr + x.size = e := by
  induction cs generalizing a with
  | nil => exact absurd (Eq.symm h) hne
  | cons d cs ih =>
    obtain ⟨h1, h2, h3, h4⟩ := h
    by_cases hd : e = a + d.size
    · exact ⟨d, List.mem_cons_self .., by omega⟩
    · obtain ⟨x, hx, hxe⟩ := ih h4 hd
      exact ⟨x, List.mem_cons_of_mem _ hx, hxe⟩

/-- A chunk that does not end the heap has one after it. -/
theorem Tiles.exists_next (h : Tiles a cs e) (hc : c ∈ cs) (hne : c.addr + c.size ≠ e) :
    ∃ y ∈ cs, y.addr = c.addr + c.size := by
  obtain ⟨xs, ys, rfl⟩ := List.append_of_mem hc
  obtain ⟨_, _, _, h5⟩ := h.split
  cases ys with
  | nil => exact absurd h5 hne
  | cons y ys => exact ⟨y, by simp, h5.1⟩

end

namespace Heap

/-- The `CINUSE` bit of a chunk's header. -/
def hused (m : Mem) (a : ℕ) : Bool := decide (m.read32 (a + 4) / 2 % 2 = 1)

/-- The `PINUSE` bit of a chunk's header. -/
def hpin (m : Mem) (a : ℕ) : Bool := decide (m.read32 (a + 4) % 2 = 1)

section

variable {m m' : Mem} {a size t : ℕ} {b : Bool}

/-- A header that has been written shows its size and its `CINUSE` bit. -/
theorem shown_of_header (hw : m.read32 (a + 4) = size + t) (h8 : size % 8 = 0) (ht : t < 4)
    (hb : decide (2 ≤ t) = b) : hsize m a = size ∧ hused m a = b := by
  unfold hsize hused
  rw [hw, ← hb]
  exact ⟨by omega, decide_eq_decide.2 (by omega)⟩

theorem hpin_of_header (hw : m.read32 (a + 4) = size + t) (h8 : size % 8 = 0)
    (hb : decide (t % 2 = 1) = b) : hpin m a = b := by
  unfold hpin
  rw [hw, ← hb]
  exact decide_eq_decide.2 (by omega)

theorem hpin_congr (h : m'.read32 (a + 4) % 2 = m.read32 (a + 4) % 2) : hpin m' a = hpin m a := by
  unfold hpin
  rw [h]

/-- Setting `PINUSE` leaves the rest of a header. -/
theorem tags_of_setPinuse (hw : m'.read32 (a + 4) = m.read32 (a + 4) / 2 * 2 + 1) :
    hsize m' a = hsize m a ∧ hused m' a = hused m a ∧ hpin m' a = true := by
  unfold hsize hused hpin
  rw [hw]
  exact ⟨by omega, decide_eq_decide.2 (by omega), decide_eq_true (by omega)⟩

end

/-- Headers and footers tell the truth, except for the `PINUSE` bits of the chunks in `Zp` and the
footers before the chunks in `Zf`. -/
structure Tagged (m : Mem) (cs : List Chunk) (Zp Zf : ℕ → Prop) : Prop where
  shown : ∀ c ∈ cs, hsize m c.addr = c.size ∧ hused m c.addr = c.used
  pin : ∀ x ∈ cs, ∀ y ∈ cs, x.addr + x.size = y.addr → ¬ Zp y.addr → hpin m y.addr = x.used
  foot : ∀ x ∈ cs, ∀ y ∈ cs, x.addr + x.size = y.addr → x.used = false → ¬ Zf y.addr →
    m.read32 y.addr = x.size
  first : ∀ y ∈ cs, y.addr = 16777216 → hpin m y.addr = true

/-- No two free chunks are neighbours. -/
def NoAdjacent (cs : List Chunk) : Prop :=
  ∀ x ∈ cs, ∀ y ∈ cs, x.addr + x.size = y.addr → x.used = true ∨ y.used = true

/-- The list holds the free chunks. -/
def FreeIs (fl : List ℕ) (cs : List Chunk) : Prop :=
  ∀ a, a ∈ fl ↔ ∃ c ∈ cs, c.addr = a ∧ c.used = false

/-- The heap consists of the chunks `cs`, with the free ones in the list in the order `fl`. -/
structure Arena (h : Heap) (cs : List Chunk) (fl : List ℕ) (Zp Zf : ℕ → Prop) : Prop where
  listed : Listed h fl
  tiles : Tiles 16777216 cs h.endAddr
  tagged : Tagged h.mem cs Zp Zf
  apart : NoAdjacent cs
  free : FreeIs fl cs

/-- No address. -/
def Nowhere : ℕ → Prop := fun _ => False

/-- **The boundary-tag invariant.** -/
def Wf (h : Heap) (cs : List Chunk) (fl : List ℕ) : Prop := Arena h cs fl Nowhere Nowhere

/-- The invariant as a test. -/
theorem wf_iff {h : Heap} {cs : List Chunk} {fl : List ℕ} : Wf h cs fl ↔
    ((0 < h.head ∧ h.head % 4 = 0 ∧ h.head + 8 ≤ 4194304) ∧
      (h.endAddr % 4096 = 0 ∧ 17825792 ≤ h.endAddr ∧ h.endAddr ≤ 33554432)) ∧
    (LinkRing h.mem h.head (fl.map (· + 8)) ∧ fl.Nodup ∧
      (∀ a ∈ fl, ∀ b ∈ fl, a ≠ b → a + 16 ≤ b ∨ b + 16 ≤ a) ∧
      ∀ a ∈ fl, a % 8 = 0 ∧ 16777216 ≤ a ∧ a + 16 ≤ h.endAddr) ∧
    Tiles 16777216 cs h.endAddr ∧
    ((∀ c ∈ cs, hsize h.mem c.addr = c.size ∧ hused h.mem c.addr = c.used) ∧
      (∀ x ∈ cs, ∀ y ∈ cs, x.addr + x.size = y.addr → hpin h.mem y.addr = x.used ∧
        (x.used = false → h.mem.read32 y.addr = x.size) ∧ (x.used = true ∨ y.used = true)) ∧
      ∀ y ∈ cs, y.addr = 16777216 → hpin h.mem y.addr = true) ∧
    (∀ a ∈ fl, ∃ c ∈ cs, c.addr = a ∧ c.used = false) ∧
      ∀ c ∈ cs, c.used = false → c.addr ∈ fl := by
  constructor
  · intro hA
    have hs := hA.listed.sane
    exact ⟨⟨⟨hs.head_pos, hs.head_aligned, hs.head_low⟩, hs.endOk⟩,
      ⟨hA.listed.ring, hA.listed.nodup, hA.listed.apart, hA.listed.range⟩, hA.tiles,
      ⟨hA.tagged.shown, fun x hx y hy hxy => ⟨hA.tagged.pin x hx y hy hxy id,
        fun hu => hA.tagged.foot x hx y hy hxy hu id, hA.apart x hx y hy hxy⟩, hA.tagged.first⟩,
      fun a ha => (hA.free a).1 ha, fun c hc hu => (hA.free _).2 ⟨c, hc, rfl, hu⟩⟩
  · rintro ⟨⟨⟨h1, h2, h3⟩, h4⟩, ⟨h5, h6, h7, h8⟩, h9, ⟨h10, h11, h12⟩, h13, h14⟩
    refine ⟨⟨⟨h1, h2, h3, h4⟩, h5, h6, h7, h8⟩, h9, ⟨h10,
      fun x hx y hy hxy _ => (h11 x hx y hy hxy).1,
      fun x hx y hy hxy hu _ => (h11 x hx y hy hxy).2.1 hu, h12⟩,
      fun x hx y hy hxy => (h11 x hx y hy hxy).2.2, fun a => ⟨h13 a, ?_⟩⟩
    rintro ⟨c, hc, rfl, hu⟩
    exact h14 c hc hu

instance (h : Heap) (cs : List Chunk) (fl : List ℕ) : Decidable (Wf h cs fl) :=
  decidable_of_iff _ wf_iff.symm

section

variable {m m' : Mem} {xs mid mid' ys : List Chunk} {s a b e : ℕ} {Zp Zf Zp' Zf' : ℕ → Prop}

/-- Two neighbours are on one side of the chunks in `[a, b)`, among these, or meet at an end of
them. -/
theorem neighbours_cases (hx : Tiles s xs a) (hm : Tiles a mid' b) (hy : Tiles b ys e) (hab : a < b)
    {x y : Chunk} (hx' : x ∈ xs ++ mid' ++ ys) (hy' : y ∈ xs ++ mid' ++ ys)
    (hxy : x.addr + x.size = y.addr) :
    (x ∈ xs ∧ y ∈ xs ∧ y.addr < a) ∨ (x ∈ xs ∧ y ∈ mid' ∧ y.addr = a) ∨ (x ∈ mid' ∧ y ∈ mid') ∨
      (x ∈ mid' ∧ y ∈ ys ∧ y.addr = b) ∨ (x ∈ ys ∧ y ∈ ys ∧ b < y.addr) := by
  simp only [List.mem_append, or_assoc] at hx' hy'
  rcases hx' with hx' | hx' | hx' <;> rcases hy' with hy' | hy' | hy'
  · have := hx.mem hy'
    exact Or.inl ⟨hx', hy', by omega⟩
  · have h1 := hx.mem hx'
    have h2 := hm.mem hy'
    exact Or.inr (Or.inl ⟨hx', hy', by omega⟩)
  · have h1 := hx.mem hx'
    have h2 := hy.mem hy'
    omega
  · have h1 := hm.mem hx'
    have h2 := hx.mem hy'
    omega
  · exact Or.inr (Or.inr (Or.inl ⟨hx', hy'⟩))
  · have h1 := hm.mem hx'
    have h2 := hy.mem hy'
    exact Or.inr (Or.inr (Or.inr (Or.inl ⟨hx', hy', by omega⟩)))
  · have h1 := hy.mem hx'
    have h2 := hx.mem hy'
    omega
  · have h1 := hy.mem hx'
    have h2 := hm.mem hy'
    omega
  · have h1 := hy.mem hx'
    exact Or.inr (Or.inr (Or.inr (Or.inr ⟨hx', hy', by omega⟩)))

/-- **Replacement.** The chunks in `[a, b)` are replaced by others; outside, only the tags of the
chunk at `b` may change. -/
theorem Tagged.replace (ht : Tagged m (xs ++ mid ++ ys) Zp Zf) (hx : Tiles 16777216 xs a)
    (hm : Tiles a mid' b) (hy : Tiles b ys e) (hab : a < b)
    (hkeep : ∀ c ∈ xs ++ ys, c.addr ≠ b →
      m'.read32 (c.addr + 4) = m.read32 (c.addr + 4) ∧ m'.read32 c.addr = m.read32 c.addr)
    (hnext : ∀ c ∈ ys, c.addr = b → hsize m' b = hsize m b ∧ hused m' b = hused m b)
    (hshown : ∀ c ∈ mid', hsize m' c.addr = c.size ∧ hused m' c.addr = c.used)
    (hfirst : ∀ x ∈ xs, x.addr + x.size = a → (¬ Zp' a → hpin m' a = x.used) ∧
      (x.used = false → ¬ Zf' a → m'.read32 a = x.size))
    (hstart : a = 16777216 → hpin m' a = true)
    (hinner : ∀ x ∈ mid', ∀ y ∈ mid', x.addr + x.size = y.addr →
      (¬ Zp' y.addr → hpin m' y.addr = x.used) ∧
      (x.used = false → ¬ Zf' y.addr → m'.read32 y.addr = x.size))
    (hlast : ∀ x ∈ mid', x.addr + x.size = b → ∀ y ∈ ys, y.addr = b →
      (¬ Zp' b → hpin m' b = x.used) ∧ (x.used = false → ¬ Zf' b → m'.read32 b = x.size))
    (hZp : ∀ z, z < a ∨ b < z → Zp z → Zp' z) (hZf : ∀ z, z < a ∨ b < z → Zf z → Zf' z) :
    Tagged m' (xs ++ mid' ++ ys) Zp' Zf' := by
  have hsize' : ∀ c ∈ xs ++ ys, c.addr ≠ b → hsize m' c.addr = hsize m c.addr ∧
      hused m' c.addr = hused m c.addr ∧ hpin m' c.addr = hpin m c.addr := by
    intro c hc hne
    obtain ⟨h1, _⟩ := hkeep c hc hne
    unfold hsize hused hpin
    rw [h1]
    exact ⟨rfl, rfl, rfl⟩
  have hmem : ∀ c, c ∈ xs ++ mid' ++ ys ↔ c ∈ xs ∨ c ∈ mid' ∨ c ∈ ys := by
    intro c
    simp only [List.mem_append, or_assoc]
  have hold : ∀ c ∈ xs ++ ys, c ∈ xs ++ mid ++ ys := by
    intro c hc
    simp only [List.mem_append] at hc ⊢
    tauto
  have hxl : ∀ c ∈ xs, c ∈ xs ++ ys := fun c hc => List.mem_append_left _ hc
  have hyr : ∀ c ∈ ys, c ∈ xs ++ ys := fun c hc => List.mem_append_right _ hc
  -- a pair of neighbours that has not changed
  have hpair : ∀ x ∈ xs ++ ys, ∀ y ∈ xs ++ ys, x.addr + x.size = y.addr →
      y.addr < a ∨ b < y.addr → (¬ Zp' y.addr → hpin m' y.addr = x.used) ∧
      (x.used = false → ¬ Zf' y.addr → m'.read32 y.addr = x.size) := by
    intro x hx' y hy' hxy hyb
    refine ⟨fun hz => ?_, fun hu hz => ?_⟩
    · rw [(hsize' y hy' (by omega)).2.2]
      exact ht.pin x (hold x hx') y (hold y hy') hxy fun h => hz (hZp _ hyb h)
    · rw [(hkeep y hy' (by omega)).2]
      exact ht.foot x (hold x hx') y (hold y hy') hxy hu fun h => hz (hZf _ hyb h)
  have hpairs : ∀ x ∈ xs ++ mid' ++ ys, ∀ y ∈ xs ++ mid' ++ ys, x.addr + x.size = y.addr →
      (¬ Zp' y.addr → hpin m' y.addr = x.used) ∧
      (x.used = false → ¬ Zf' y.addr → m'.read32 y.addr = x.size) := by
    intro x hx' y hy' hxy
    rcases neighbours_cases hx hm hy hab hx' hy' hxy with ⟨hx', hy', hlt⟩ | ⟨hx', hy', hya⟩ |
      ⟨hx', hy'⟩ | ⟨hx', hy', hyb⟩ | ⟨hx', hy', hlt⟩
    · exact hpair x (hxl x hx') y (hxl y hy') hxy (by omega)
    · rw [hya]
      exact hfirst x hx' (by omega)
    · exact hinner x hx' y hy' hxy
    · rw [hyb]
      exact hlast x hx' (by omega) y hy' hyb
    · exact hpair x (hyr x hx') y (hyr y hy') hxy (by omega)
  refine ⟨fun c hc => ?_, fun x hx' y hy' hxy hz => (hpairs x hx' y hy' hxy).1 hz,
    fun x hx' y hy' hxy hu hz => (hpairs x hx' y hy' hxy).2 hu hz, fun y hy' hys => ?_⟩
  · rcases (hmem c).1 hc with hc | hc | hc
    · have := hx.mem hc
      obtain ⟨h1, h2, _⟩ := hsize' c (hxl c hc) (by omega)
      rw [h1, h2]
      exact ht.shown c (hold c (hxl c hc))
    · exact hshown c hc
    · by_cases hcb : c.addr = b
      · have h1 := hnext c hc hcb
        rw [hcb, h1.1, h1.2, ← hcb]
        exact ht.shown c (hold c (hyr c hc))
      · obtain ⟨h1, h2, _⟩ := hsize' c (hyr c hc) hcb
        rw [h1, h2]
        exact ht.shown c (hold c (hyr c hc))
  · have hle := hx.le
    rcases (hmem y).1 hy' with hy' | hy' | hy'
    · have := hx.mem hy'
      rw [(hsize' y (hxl y hy') (by omega)).2.2]
      exact ht.first y (hold y (hxl y hy')) hys
    · have := hm.mem hy'
      have hya : y.addr = a := by omega
      rw [hya]
      exact hstart (by omega)
    · have := hy.mem hy'
      omega

theorem NoAdjacent.replace (hn : NoAdjacent (xs ++ mid ++ ys)) (hx : Tiles s xs a)
    (hm : Tiles a mid' b) (hy : Tiles b ys e) (hab : a < b)
    (hfirst : ∀ x ∈ xs, x.addr + x.size = a → ∀ y ∈ mid', y.addr = a →
      x.used = true ∨ y.used = true)
    (hinner : NoAdjacent mid')
    (hlast : ∀ x ∈ mid', x.addr + x.size = b → ∀ y ∈ ys, y.addr = b →
      x.used = true ∨ y.used = true) : NoAdjacent (xs ++ mid' ++ ys) := by
  have hold : ∀ c, c ∈ xs ∨ c ∈ ys → c ∈ xs ++ mid ++ ys := by
    intro c hc
    simp only [List.mem_append]
    tauto
  intro x hx' y hy' hxy
  rcases neighbours_cases hx hm hy hab hx' hy' hxy with ⟨hx', hy', _⟩ | ⟨hx', hy', hya⟩ |
    ⟨hx', hy'⟩ | ⟨hx', hy', hyb⟩ | ⟨hx', hy', _⟩
  · exact hn x (hold x (Or.inl hx')) y (hold y (Or.inl hy')) hxy
  · exact hfirst x hx' (by omega) y hy' hya
  · exact hinner x hx' y hy' hxy
  · exact hlast x hx' (by omega) y hy' hyb
  · exact hn x (hold x (Or.inr hx')) y (hold y (Or.inr hy')) hxy

/-! ## Words that are no links -/

section

variable {env : HeapEnv} {W : ℕ → Prop} {U : ℕ → ℕ → Prop} {S : ℕ → Prop} {M err : Prop} {h h' : Heap}
  {cs : List Chunk} {fl : List ℕ}

theorem not_listWord (hs : h.Sane) {z : ℕ} (hz : 16777216 ≤ z)
    (hfl : ∀ x ∈ fl, z ≠ x + 8 ∧ z ≠ x + 12) : ¬ ListWord h fl z := by
  have hlow := hs.head_low
  rintro (e | e | ⟨x, hx, e | e⟩)
  · omega
  · omega
  · exact (hfl x hx).1 e
  · exact (hfl x hx).2 e

/-- What is left of the list without one of its chunks. -/
theorem mem_without {l₁ l₂ : List ℕ} {a : ℕ} (hn : (l₁ ++ a :: l₂).Nodup) (z : ℕ) :
    z ∈ l₁ ++ l₂ ↔ z ∈ l₁ ++ a :: l₂ ∧ z ≠ a := by
  have hperm : (l₁ ++ a :: l₂).Perm (a :: (l₁ ++ l₂)) := List.perm_middle
  rw [hperm.nodup_iff, List.nodup_cons] at hn
  rw [hperm.mem_iff, List.mem_cons]
  constructor
  · intro hz
    exact ⟨Or.inr hz, fun e => hn.1 (e ▸ hz)⟩
  · rintro ⟨hz | hz, hne⟩
    · exact absurd hz hne
    · exact hz

/-- Where nothing but links has changed the listed chunks have their sizes. -/
theorem Listed.hsize_congr (hl : Listed h' fl)
    (hwords : ∀ z, 16777216 ≤ z → z % 4 = 0 → z < 4294967296 →
      (∀ x ∈ fl, z ≠ x + 8 ∧ z ≠ x + 12) → h'.mem.read32 z = h.mem.read32 z) :
    ∀ a ∈ fl, hsize h'.mem a = hsize h.mem a := by
  intro a ha
  have hb := hl.sane.bounds
  have hra := hl.range a ha
  unfold hsize
  rw [hwords (a + 4) (by omega) (by omega) (by omega) fun x hx => ?_]
  by_cases hxa : x = a
  · omega
  · have := hl.apart x hx a ha hxa
    omega

/-- The chunk joins the list, and nothing but links changes. -/
theorem wp_insertChunk_words {a : ℕ} (hl : Listed h fl) (hf : Fits h fl a)
    (hW : ∀ x ∈ a :: fl, W (x + 8) ∧ W (x + 12)) {Q : Unit → Heap → Prop}
    (hQ : ∀ h' fl', Listed h' fl' → h'.endAddr = h.endAddr → h'.head = h.head →
      (∀ z, z ∈ fl' ↔ z = a ∨ z ∈ fl) →
      (∀ z, 16777216 ≤ z → z % 4 = 0 → z < 4294967296 →
        (∀ x, x = a ∨ x ∈ fl → z ≠ x + 8 ∧ z ≠ x + 12) → h'.mem.read32 z = h.mem.read32 z) →
      (BySize h.mem fl → BySize h'.mem fl') → Q () h') :
    Wp (Allowed h.head W U S M) err (insertChunk env a) Q h := by
  refine wp_insertChunk hl hf hW fun h' hl' he hh hsame => ?_
  have hfl : ∀ z, z ∈ insertBySize h.mem a fl ↔ z = a ∨ z ∈ fl := fun z => by
    rw [(insertBySize_perm _ _ _).mem_iff, List.mem_cons]
  have hwords : ∀ z, 16777216 ≤ z → z % 4 = 0 → z < 4294967296 →
      (∀ x, x = a ∨ x ∈ fl → z ≠ x + 8 ∧ z ≠ x + 12) → h'.mem.read32 z = h.mem.read32 z :=
    fun z h1 h2 h3 h4 => hsame z h2 h3 (not_listWord hl.sane h1 fun x hx =>
      h4 x (List.mem_cons.1 hx))
  refine hQ h' _ hl' he hh hfl hwords fun hb => (hb.insert a).congr (hl'.hsize_congr ?_)
  exact fun z h1 h2 h3 h4 => hwords z h1 h2 h3 fun x hx => h4 x ((hfl x).2 hx)

/-- The chunk leaves the list, and nothing but links changes. -/
theorem wp_removeChunk_words {a : ℕ} (hl : Listed h fl) (ha : a ∈ fl)
    (hW : ∀ x ∈ fl, W (x + 8) ∧ W (x + 12)) {Q : Unit → Heap → Prop}
    (hQ : ∀ h' fl', Listed h' fl' → h'.endAddr = h.endAddr → h'.head = h.head →
      (∀ z, z ∈ fl' ↔ z ∈ fl ∧ z ≠ a) →
      (∀ z, 16777216 ≤ z → z % 4 = 0 → z < 4294967296 →
        (∀ x ∈ fl', z ≠ x + 8 ∧ z ≠ x + 12) → h'.mem.read32 z = h.mem.read32 z) →
      (BySize h.mem fl → BySize h'.mem fl') → Q () h') :
    Wp (Allowed h.head W U S M) err (removeChunk env a) Q h := by
  obtain ⟨l₁, l₂, rfl⟩ := List.append_of_mem ha
  have hfl := mem_without hl.nodup
  refine wp_removeChunk hl (fun x hx => hW x ((hfl x).1 hx).1) fun h' hl' he hh hsame => ?_
  have hwords : ∀ z, 16777216 ≤ z → z % 4 = 0 → z < 4294967296 →
      (∀ x ∈ l₁ ++ l₂, z ≠ x + 8 ∧ z ≠ x + 12) → h'.mem.read32 z = h.mem.read32 z :=
    fun z h1 h2 h3 h4 => hsame z h2 h3 (not_listWord hl.sane h1 h4)
  refine hQ h' _ hl' he hh hfl hwords fun hb => BySize.congr ?_ (hl'.hsize_congr hwords)
  exact hb.sublist ((List.sublist_cons_self _ _).append_left _)

theorem Listed.write (hl : Listed h fl) {a v : ℕ} (ha : a % 4 = 0) (hlt : a < 4294967296)
    (hn : ¬ ListWord h fl a) : Listed (h.write a v) fl := by
  refine ⟨hl.sane.write a v, ?_, hl.nodup, hl.apart, hl.range⟩
  have hne : ∀ u, IsNode h fl u → u ≠ a ∧ u + 4 ≠ a := by
    intro u hu
    have hw := hu.listWord
    exact ⟨fun e => hn (e ▸ hw.1), fun e => hn (e ▸ hw.2)⟩
  refine hl.ring.congr (fun u hu => ?_) (fun u hu => ?_)
  · have hnode := isNode_iff_mem.2 hu
    obtain ⟨hu4, hult, _, _⟩ := hl.node hnode
    exact read_write_ne ha hu4 (hne u hnode).1 hlt (by omega)
  · have hnode := isNode_iff_mem.2 hu
    obtain ⟨hu4, hult, _, _⟩ := hl.node hnode
    exact read_write_ne ha (by omega) (hne u hnode).2 hlt (by omega)

/-- A write behind a header that is not listed. -/
theorem Listed.bySize_write (hl : Listed h fl) {a v : ℕ} (ha : a % 4 = 0) (hlt : a < 4294967296)
    (hne : ∀ x ∈ fl, x + 4 ≠ a) (hb : BySize h.mem fl) : BySize (h.write a v).mem fl := by
  have hs := hl.sane.bounds
  refine hb.congr fun x hx => ?_
  have hrx := hl.range x hx
  unfold hsize
  rw [read_write_ne ha (by omega) (hne x hx) hlt (by omega)]

/-! ## Header words -/

theorem and_one_word (w : ℕ) : w &&& 1 = w % 2 := Nat.and_one_is_mod w

theorem or_one_word (w : ℕ) : w ||| 1 = w / 2 * 2 + 1 := by
  apply Nat.eq_of_testBit_eq
  intro i
  rw [Nat.testBit_or]
  cases i with
  | zero => simp
  | succ i =>
    rw [Nat.testBit_succ, Nat.testBit_succ, Nat.testBit_succ]
    rw [show (w / 2 * 2 + 1) / 2 = w / 2 by omega]
    simp

theorem or_two_word {w : ℕ} (hw : w < 2) : w ||| 2 = w + 2 := by
  interval_cases w <;> rfl

theorem or_size_word {w s : ℕ} (hw : w < 4) (hs : s % 8 = 0) : w ||| s = s + w := by
  have h := Nat.two_pow_add_eq_or_of_lt (show w < 2 ^ 3 by omega) (s / 8)
  rw [show 2 ^ 3 * (s / 8) = s by omega] at h
  rw [Nat.or_comm, ← h]

/-- The header `set_inuse` writes. -/
theorem inuse_word {w s : ℕ} (hs : s % 8 = 0) : (w &&& 1) ||| 2 ||| s = s + 2 + w % 2 := by
  rw [and_one_word, or_two_word (Nat.mod_lt _ (by norm_num)), or_size_word (by omega) hs]
  omega

theorem and_compl_one {w : ℕ} (hw : w < 4294967296) : w &&& Word32.compl 1 = w / 2 * 2 :=
  Word32.and_compl_two_pow (k := 1) hw (by norm_num)

theorem pinuse_bit (w : ℕ) : (w &&& 1 != 0) = decide (w % 2 = 1) := by
  rw [and_one_word]
  rcases Nat.mod_two_eq_zero_or_one w with h | h <;> rw [h] <;> rfl

theorem and_two_word (w : ℕ) : w &&& 2 = w / 2 % 2 * 2 := by
  apply Nat.eq_of_testBit_eq
  intro i
  rw [Nat.testBit_and]
  match i with
  | 0 => simp
  | 1 =>
    rcases Nat.mod_two_eq_zero_or_one (w / 2) with h | h
    · rw [h]; simp [Nat.testBit_succ, h]
    · rw [h]; simp [Nat.testBit_succ, h]
  | i + 2 =>
    have h2 : Nat.testBit 2 (i + 2) = false := Nat.testBit_lt_two_pow (by
      calc 2 < 2 ^ 2 := by norm_num
        _ ≤ 2 ^ (i + 2) := Nat.pow_le_pow_right (by norm_num) (by omega))
    have h3 : Nat.testBit (w / 2 % 2 * 2) (i + 2) = false := Nat.testBit_lt_two_pow (by
      calc w / 2 % 2 * 2 < 2 ^ 2 := by omega
        _ ≤ 2 ^ (i + 2) := Nat.pow_le_pow_right (by norm_num) (by omega))
    rw [h2, h3, Bool.and_false]

theorem cinuse_bit (w : ℕ) : (w &&& 2 != 0) = decide (w / 2 % 2 = 1) := by
  rw [and_two_word]
  rcases Nat.mod_two_eq_zero_or_one (w / 2) with h | h <;> rw [h] <;> rfl

/-! ## Headers -/

theorem wp_pinuse (hs : h.Sane) {a : ℕ} {Q : Bool → Heap → Prop} (hlo : 16777216 ≤ a)
    (hhi : a + 8 ≤ h.endAddr) (hQ : Q (hpin h.mem a) h) :
    Wp (Allowed h.head W U S M) err (pinuse env a) Q h := by
  have hb := hs.bounds
  unfold pinuse
  rw [show headOf a = a + 4 from Word32.add_eq (by omega)]
  refine .bind (wp_load hs (Or.inl ⟨by unfold heapStart; omega, by omega⟩) (.pure ?_))
  rw [pinuse_bit]
  exact hQ

theorem wp_cinuse (hs : h.Sane) {a : ℕ} {Q : Bool → Heap → Prop} (hlo : 16777216 ≤ a)
    (hhi : a + 8 ≤ h.endAddr) (hQ : Q (hused h.mem a) h) :
    Wp (Allowed h.head W U S M) err (cinuse env a) Q h := by
  have hb := hs.bounds
  unfold cinuse
  rw [show headOf a = a + 4 from Word32.add_eq (by omega)]
  refine .bind (wp_load hs (Or.inl ⟨by unfold heapStart; omega, by omega⟩) (.pure ?_))
  rw [cinuse_bit]
  exact hQ

theorem wp_clearPinuse (hs : h.Sane) {a : ℕ} {Q : Unit → Heap → Prop} (hlo : 16777216 ≤ a)
    (hhi : a + 8 ≤ h.endAddr) (hW : W (a + 4))
    (hQ : Q () (h.write (a + 4) (h.mem.read32 (a + 4) / 2 * 2))) :
    Wp (Allowed h.head W U S M) err (clearPinuse env a) Q h := by
  have hb := hs.bounds
  have hin : InHeap h.head h.endAddr (a + 4) := Or.inl ⟨by unfold heapStart; omega, by omega⟩
  unfold clearPinuse
  rw [show headOf a = a + 4 from Word32.add_eq (by omega)]
  refine .bind (wp_load hs hin (wp_store hs hin (Or.inl hW) ?_))
  rw [and_compl_one (Mem.read32_lt _ _)]
  exact hQ

theorem wp_setSizeAndPinuse (hs : h.Sane) {a size : ℕ} {Q : Unit → Heap → Prop}
    (hlo : 16777216 ≤ a) (hhi : a + 8 ≤ h.endAddr) (hsize : size % 8 = 0) (hW : W (a + 4))
    (hQ : Q () (h.write (a + 4) (size + 1))) :
    Wp (Allowed h.head W U S M) err (setSizeAndPinuse env a size) Q h := by
  have hb := hs.bounds
  unfold setSizeAndPinuse
  rw [show headOf a = a + 4 from Word32.add_eq (by omega)]
  refine wp_store hs (Or.inl ⟨by unfold heapStart; omega, by omega⟩) (Or.inl hW) ?_
  rw [Nat.or_comm, or_size_word (by norm_num) hsize]
  exact hQ

/-- The state after `set_inuse`. -/
def inuseState (h : Heap) (a size : ℕ) : Heap :=
  (h.write (a + 4) (size + 2 + h.mem.read32 (a + 4) % 2)).write (a + size + 4)
    (h.mem.read32 (a + size + 4) / 2 * 2 + 1)

theorem wp_setInuse (hs : h.Sane) {a size : ℕ} {Q : Unit → Heap → Prop} (ha : a % 8 = 0)
    (hlo : 16777216 ≤ a) (hsize : size % 8 = 0) (hpos : 8 ≤ size)
    (hhi : a + size + 8 ≤ h.endAddr) (hW : W (a + 4)) (hW' : W (a + size + 4))
    (hQ : Q () (inuseState h a size)) :
    Wp (Allowed h.head W U S M) err (setInuse env a size) Q h := by
  have hb := hs.bounds
  unfold setInuse
  rw [show headOf a = a + 4 from Word32.add_eq (by omega)]
  refine .bind (wp_load hs (Or.inl ⟨by unfold heapStart; omega, by omega⟩) ?_)
  refine .bind (wp_store hs (Or.inl ⟨by unfold heapStart; omega, by omega⟩) (Or.inl hW) ?_)
  rw [inuse_word hsize]
  dsimp only
  rw [Word32.add_eq (show a + size < 4294967296 by omega),
    show headOf (a + size) = a + size + 4 from Word32.add_eq (by omega)]
  have hs' := hs.write (a + 4) (size + 2 + h.mem.read32 (a + 4) % 2)
  have hin : InHeap h.head h.endAddr (a + size + 4) :=
    Or.inl ⟨by unfold heapStart; omega, by omega⟩
  refine .bind (wp_load (h := h.write (a + 4) (size + 2 + h.mem.read32 (a + 4) % 2)) hs' hin ?_)
  refine wp_store (h := h.write (a + 4) (size + 2 + h.mem.read32 (a + 4) % 2)) hs' hin
    (Or.inl hW') ?_
  rw [or_one_word, read_write_ne (by omega) (by omega) (by omega) (by omega) (by omega)]
  exact hQ

/-- `set_inuse` on a chunk that ends where the heap ends touches the next page. -/
theorem wp_setInuse_top (hs : h.Sane) {a size : ℕ} {Q : Unit → Heap → Prop} (ha : a % 8 = 0)
    (hlo : 16777216 ≤ a) (hsize : size % 8 = 0) (hpos : 8 ≤ size) (htop : a + size = h.endAddr)
    (hW : W (a + 4)) (hfault : env.ext (h.endAddr / 4096) = false → err)
    (hspill : env.ext (h.endAddr / 4096) = true → S h.endAddr ∧ Q () (inuseState h a size)) :
    Wp (Allowed h.head W U S M) err (setInuse env a size) Q h := by
  have hb := hs.bounds
  have hmap : ∀ v, ((h.write (a + 4) v).mapped env (h.endAddr + 4) &&
      (h.write (a + 4) v).mapped env (Word32.add (h.endAddr + 4) 3)) =
        env.ext (h.endAddr / 4096) := by
    intro v
    rw [Word32.add_eq (by omega)]
    unfold mapped
    rw [write_endAddr, show (h.endAddr + 4) / 4096 = h.endAddr / 4096 by omega,
      show (h.endAddr + 4 + 3) / 4096 = h.endAddr / 4096 by omega,
      decide_eq_false (show ¬ h.endAddr + 4 < h.endAddr by omega),
      decide_eq_false (show ¬ h.endAddr + 4 + 3 < h.endAddr by omega)]
    simp
  unfold setInuse
  rw [show headOf a = a + 4 from Word32.add_eq (by omega)]
  refine .bind (wp_load hs (Or.inl ⟨by unfold heapStart; omega, by omega⟩) ?_)
  refine .bind (wp_store hs (Or.inl ⟨by unfold heapStart; omega, by omega⟩) (Or.inl hW) ?_)
  rw [inuse_word hsize]
  dsimp only
  rw [Word32.add_eq (show a + size < 4294967296 by omega),
    show headOf (a + size) = a + size + 4 from Word32.add_eq (by omega), htop]
  refine .bind ?_
  unfold load
  refine .bind (.get ?_)
  rw [hmap]
  cases hext : env.ext (h.endAddr / 4096) with
  | false =>
    rw [if_neg (by decide)]
    exact .fail (hfault hext)
  | true =>
    obtain ⟨hS, hQ⟩ := hspill hext
    rw [if_pos rfl]
    refine .bind (.emit (Or.inr ⟨hS, rfl⟩) (.pure ?_))
    unfold store
    refine .bind (.get ?_)
    rw [hmap, hext, if_pos rfl]
    refine .bind (.emit (Or.inr ⟨hS, rfl⟩) (.modify ?_))
    unfold inuseState at hQ
    rw [htop] at hQ
    rw [or_one_word, read_write_ne (by omega) (by omega) (by omega) (by omega) (by omega)]
    exact hQ

section

variable {h : Heap} {cs xs mid mid' ys : List Chunk} {fl fl' : List ℕ} {Zp Zf : ℕ → Prop}

/-- The list after a replacement: the free chunks that were replaced are gone, the new ones are
there. -/
theorem FreeIs.replace (hf : FreeIs fl (xs ++ mid ++ ys)) {a e : ℕ}
    (ht : Tiles a (xs ++ mid ++ ys) e)
    (hfl : ∀ z, z ∈ fl' ↔ (z ∈ fl ∧ ∀ d ∈ mid, d.addr ≠ z) ∨
      ∃ c ∈ mid', c.addr = z ∧ c.used = false) : FreeIs fl' (xs ++ mid' ++ ys) := by
  have hout : ∀ c, c ∈ xs ∨ c ∈ ys → ∀ d ∈ mid, d.addr ≠ c.addr :=
    fun c hc d hd => (ht.addr_ne hd hc).symm
  intro z
  rw [hfl]
  constructor
  · rintro (⟨hz, hne⟩ | ⟨c, hc, he, hu⟩)
    · obtain ⟨c, hc, he, hu⟩ := (hf z).1 hz
      refine ⟨c, ?_, he, hu⟩
      simp only [List.mem_append] at hc ⊢
      rcases hc with (hc | hc) | hc
      · exact Or.inl (Or.inl hc)
      · exact absurd he (hne c hc)
      · exact Or.inr hc
    · exact ⟨c, by simp [hc], he, hu⟩
  · rintro ⟨c, hc, he, hu⟩
    simp only [List.mem_append] at hc
    rcases hc with (hc | hc) | hc
    · exact Or.inl ⟨(hf z).2 ⟨c, by simp [hc], he, hu⟩, fun d hd => he ▸ hout c (Or.inl hc) d hd⟩
    · exact Or.inr ⟨c, hc, he, hu⟩
    · exact Or.inl ⟨(hf z).2 ⟨c, by simp [hc], he, hu⟩, fun d hd => he ▸ hout c (Or.inr hc) d hd⟩

/-- A listed chunk is the given one, or apart from it. -/
theorem Arena.sep_listed (hA : Arena h cs fl Zp Zf) {c : Chunk} (hc : c ∈ cs) {x : ℕ}
    (hx : x ∈ fl) : x = c.addr ∨ x + 16 ≤ c.addr ∨ c.addr + c.size ≤ x := by
  obtain ⟨d, hd, rfl, _⟩ := (hA.free x).1 hx
  have h1 := hA.tiles.mem hd
  rcases hA.tiles.sep hd hc with h2 | h2 | h2
  · exact Or.inl (by rw [h2])
  · omega
  · omega

theorem Arena.mem_bounds (hA : Arena h cs fl Zp Zf) {c : Chunk} (hc : c ∈ cs) :
    16777216 ≤ c.addr ∧ c.addr % 8 = 0 ∧ 16 ≤ c.size ∧ c.size % 8 = 0 ∧
      c.addr + c.size ≤ h.endAddr ∧ h.endAddr ≤ 33554432 := by
  have h1 := hA.tiles.mem hc
  have h2 := hA.listed.sane.bounds
  omega

/-- The listed chunks are outside a chunk in use. -/
theorem Arena.outside_used (hA : Arena h cs fl Zp Zf) {c : Chunk} (hc : c ∈ cs)
    (hused : c.used = true) {x : ℕ} (hx : x ∈ fl) : x + 16 ≤ c.addr ∨ c.addr + c.size ≤ x := by
  refine (hA.sep_listed hc hx).resolve_left ?_
  rintro rfl
  obtain ⟨g, hg, hgz, hgu⟩ := (hA.free _).1 hx
  rw [hA.tiles.eq_of_addr hg hc hgz, hused] at hgu
  cases hgu

end

/-- **`set_inuse` up to the end of a chunk.** At the top of the heap the header behind it is beyond
the end. -/
theorem Arena.wp_setInuse {h₁ : Heap} {cs : List Chunk} {fl : List ℕ} {Zp Zf : ℕ → Prop} {c : Chunk}
    (hA : Arena h cs fl Zp Zf) (hc : c ∈ cs) (hs₁ : h₁.Sane) (he₁ : h₁.endAddr = h.endAddr)
    {a size : ℕ} (ha : a % 8 = 0) (hlo : 16777216 ≤ a) (hsize : size % 8 = 0) (hpos : 8 ≤ size)
    (hfill : a + size = c.addr + c.size) (hWa : W (a + 4)) (hW : ∀ n ∈ cs, W (n.addr + 4))
    (hspill : c.addr + c.size = h.endAddr → (env.ext (h.endAddr / 4096) = false → err) ∧
      (env.ext (h.endAddr / 4096) = true → S h.endAddr)) {Q : Unit → Heap → Prop}
    (hQ : (c.addr + c.size = h.endAddr → env.ext (h.endAddr / 4096) = true) →
      Q () (inuseState h₁ a size)) :
    Wp (Allowed h₁.head W U S M) err (setInuse env a size) Q h₁ := by
  by_cases htop : c.addr + c.size = h.endAddr
  · obtain ⟨hfault, hS⟩ := hspill htop
    rw [← he₁] at htop hfault hS hQ
    exact wp_setInuse_top hs₁ ha hlo hsize hpos (hfill.trans htop) hWa hfault
      fun hext => ⟨hS hext, hQ fun _ => hext⟩
  · obtain ⟨n, hn, hna⟩ := hA.tiles.exists_next hc htop
    have hnb := hA.mem_bounds hn
    refine Heap.wp_setInuse hs₁ ha hlo hsize hpos (by omega) hWa ?_ (hQ fun h => absurd h htop)
    rw [hfill, ← hna]
    exact hW n hn

/-- **Replacement by one chunk.** -/
theorem Arena.replaceOne {h h' : Heap} {xs mid ys : List Chunk} {fl fl' : List ℕ}
    {Zp Zf Zp' Zf' : ℕ → Prop} {F : Chunk} (hA : Arena h (xs ++ mid ++ ys) fl Zp Zf)
    (hl : Listed h' fl') (hx : Tiles 16777216 xs F.addr) (h16 : 16 ≤ F.size) (h8 : F.size % 8 = 0)
    (hy : Tiles (F.addr + F.size) ys h'.endAddr)
    (hkeep : ∀ c ∈ xs ++ ys, c.addr ≠ F.addr + F.size →
      h'.mem.read32 (c.addr + 4) = h.mem.read32 (c.addr + 4) ∧
      h'.mem.read32 c.addr = h.mem.read32 c.addr)
    (hnext : ∀ c ∈ ys, c.addr = F.addr + F.size →
      hsize h'.mem c.addr = hsize h.mem c.addr ∧ hused h'.mem c.addr = hused h.mem c.addr ∧
      (¬ Zp' c.addr → hpin h'.mem c.addr = F.used) ∧
      (F.used = false → (¬ Zf' c.addr → h'.mem.read32 c.addr = F.size) ∧ c.used = true))
    (hshown : hsize h'.mem F.addr = F.size ∧ hused h'.mem F.addr = F.used)
    (hprev : ∀ x ∈ xs, x.addr + x.size = F.addr → (¬ Zp' F.addr → hpin h'.mem F.addr = x.used) ∧
      (x.used = false → (¬ Zf' F.addr → h'.mem.read32 F.addr = x.size) ∧ F.used = true))
    (hstart : F.addr = 16777216 → hpin h'.mem F.addr = true)
    (hfl : ∀ z, z ∈ fl' ↔ (z ∈ fl ∧ ∀ d ∈ mid, d.addr ≠ z) ∨ (z = F.addr ∧ F.used = false))
    (hZp : ∀ z, z < F.addr ∨ F.addr + F.size < z → Zp z → Zp' z)
    (hZf : ∀ z, z < F.addr ∨ F.addr + F.size < z → Zf z → Zf' z) :
    Arena h' (xs ++ [F] ++ ys) fl' Zp' Zf' := by
  have hm : Tiles F.addr [F] (F.addr + F.size) := ⟨rfl, h16, h8, rfl⟩
  have hab : F.addr < F.addr + F.size := by omega
  -- no chunk is its own neighbour
  have hself : ∀ x ∈ [F], ∀ y ∈ [F], x.addr + x.size = y.addr → False := by
    intro x hx' y hy' hxy
    rw [List.mem_singleton.1 hx', List.mem_singleton.1 hy'] at hxy
    omega
  refine ⟨hl, ?_, ?_, ?_, ?_⟩
  · rw [tiles_append]
    exact ⟨_, tiles_append.2 ⟨_, hx, hm⟩, hy⟩
  · refine hA.tagged.replace hx hm hy hab hkeep (fun c hc hcb => ?_) (fun c hc => ?_)
      (fun x hx' hxa => ?_) hstart (fun x hx' y hy' hxy => (hself x hx' y hy' hxy).elim)
      (fun x hx' hxb y hy' hyb => ?_) hZp hZf
    · obtain ⟨h1, h2, _⟩ := hnext c hc hcb
      rw [hcb] at h1 h2
      exact ⟨h1, h2⟩
    · rw [List.mem_singleton.1 hc]
      exact hshown
    · obtain ⟨h1, h2⟩ := hprev x hx' hxa
      exact ⟨h1, fun hu => (h2 hu).1⟩
    · obtain ⟨_, _, h1, h2⟩ := hnext y hy' hyb
      rw [hyb] at h1 h2
      rw [List.mem_singleton.1 hx']
      exact ⟨h1, fun hu => (h2 hu).1⟩
  · refine hA.apart.replace hx hm hy hab (fun x hx' hxa y hy' hya => ?_)
      (fun x hx' y hy' hxy => (hself x hx' y hy' hxy).elim) (fun x hx' hxb y hy' hyb => ?_)
    · rw [List.mem_singleton.1 hy']
      cases hu : x.used with
      | true => exact Or.inl rfl
      | false => exact Or.inr ((hprev x hx' hxa).2 hu).2
    · rw [List.mem_singleton.1 hx']
      cases hu : F.used with
      | true => exact Or.inl rfl
      | false => exact Or.inr ((hnext y hy' hyb).2.2.2 hu).2
  · refine hA.free.replace hA.tiles fun z => ?_
    rw [hfl]
    constructor
    · rintro (h1 | ⟨h1, h2⟩)
      · exact Or.inl h1
      · exact Or.inr ⟨F, List.mem_singleton_self F, h1.symm, h2⟩
    · rintro (h1 | ⟨c, hc, h1, h2⟩)
      · exact Or.inl h1
      · rw [List.mem_singleton.1 hc] at h1 h2
        exact Or.inr ⟨h1.symm, h2⟩

/-- **Replacement by two chunks.** -/
theorem Arena.replaceTwo {h h' : Heap} {xs mid ys : List Chunk} {fl fl' : List ℕ}
    {Zp Zf Zp' Zf' : ℕ → Prop} {A B : Chunk} (hA : Arena h (xs ++ mid ++ ys) fl Zp Zf)
    (hl : Listed h' fl') (hx : Tiles 16777216 xs A.addr) (hA16 : 16 ≤ A.size)
    (hA8 : A.size % 8 = 0) (hAB : A.addr + A.size = B.addr) (hB16 : 16 ≤ B.size)
    (hB8 : B.size % 8 = 0) (hy : Tiles (B.addr + B.size) ys h'.endAddr)
    (hkeep : ∀ c ∈ xs ++ ys, c.addr ≠ B.addr + B.size →
      h'.mem.read32 (c.addr + 4) = h.mem.read32 (c.addr + 4) ∧
      h'.mem.read32 c.addr = h.mem.read32 c.addr)
    (hnext : ∀ c ∈ ys, c.addr = B.addr + B.size →
      hsize h'.mem c.addr = hsize h.mem c.addr ∧ hused h'.mem c.addr = hused h.mem c.addr ∧
      (¬ Zp' c.addr → hpin h'.mem c.addr = B.used) ∧
      (B.used = false → (¬ Zf' c.addr → h'.mem.read32 c.addr = B.size) ∧ c.used = true))
    (hAshown : hsize h'.mem A.addr = A.size ∧ hused h'.mem A.addr = A.used)
    (hBshown : hsize h'.mem B.addr = B.size ∧ hused h'.mem B.addr = B.used)
    (hprev : ∀ x ∈ xs, x.addr + x.size = A.addr → (¬ Zp' A.addr → hpin h'.mem A.addr = x.used) ∧
      (x.used = false → (¬ Zf' A.addr → h'.mem.read32 A.addr = x.size) ∧ A.used = true))
    (hstart : A.addr = 16777216 → hpin h'.mem A.addr = true)
    (hjoin : (¬ Zp' B.addr → hpin h'.mem B.addr = A.used) ∧
      (A.used = false → (¬ Zf' B.addr → h'.mem.read32 B.addr = A.size) ∧ B.used = true))
    (hfl : ∀ z, z ∈ fl' ↔ (z ∈ fl ∧ ∀ d ∈ mid, d.addr ≠ z) ∨ (z = A.addr ∧ A.used = false) ∨
      (z = B.addr ∧ B.used = false))
    (hZp : ∀ z, z < A.addr ∨ B.addr + B.size < z → Zp z → Zp' z)
    (hZf : ∀ z, z < A.addr ∨ B.addr + B.size < z → Zf z → Zf' z) :
    Arena h' (xs ++ [A, B] ++ ys) fl' Zp' Zf' := by
  have hm : Tiles A.addr [A, B] (B.addr + B.size) :=
    ⟨rfl, hA16, hA8, hAB.symm, hB16, hB8, by show A.addr + A.size + B.size = _; rw [hAB]⟩
  have hab : A.addr < B.addr + B.size := by omega
  have hmem : ∀ {c : Chunk}, c ∈ [A, B] → c = A ∨ c = B := by
    intro c hc
    rcases List.mem_cons.1 hc with h1 | h1
    · exact Or.inl h1
    · exact Or.inr (List.mem_singleton.1 h1)
  -- the only neighbours among the two
  have hpair : ∀ x ∈ [A, B], ∀ y ∈ [A, B], x.addr + x.size = y.addr → x = A ∧ y = B := by
    intro x hx' y hy' hxy
    rcases hmem hx' with rfl | rfl <;> rcases hmem hy' with rfl | rfl
    · omega
    · exact ⟨rfl, rfl⟩
    · omega
    · omega
  have hlast : ∀ x ∈ [A, B], x.addr + x.size = B.addr + B.size → x = B := by
    intro x hx' hxb
    rcases hmem hx' with rfl | rfl
    · omega
    · rfl
  refine ⟨hl, ?_, ?_, ?_, ?_⟩
  · rw [tiles_append]
    exact ⟨_, tiles_append.2 ⟨_, hx, hm⟩, hy⟩
  · refine hA.tagged.replace hx hm hy hab hkeep (fun c hc hcb => ?_) (fun c hc => ?_)
      (fun x hx' hxa => ?_) hstart (fun x hx' y hy' hxy => ?_)
      (fun x hx' hxb y hy' hyb => ?_) hZp hZf
    · obtain ⟨h1, h2, _⟩ := hnext c hc hcb
      rw [hcb] at h1 h2
      exact ⟨h1, h2⟩
    · rcases hmem hc with rfl | rfl
      · exact hAshown
      · exact hBshown
    · obtain ⟨h1, h2⟩ := hprev x hx' hxa
      exact ⟨h1, fun hu => (h2 hu).1⟩
    · obtain ⟨rfl, rfl⟩ := hpair x hx' y hy' hxy
      exact ⟨hjoin.1, fun hu => (hjoin.2 hu).1⟩
    · obtain ⟨_, _, h1, h2⟩ := hnext y hy' hyb
      rw [hyb] at h1 h2
      rw [hlast x hx' hxb]
      exact ⟨h1, fun hu => (h2 hu).1⟩
  · refine hA.apart.replace hx hm hy hab (fun x hx' hxa y hy' hya => ?_)
      (fun x hx' y hy' hxy => ?_) (fun x hx' hxb y hy' hyb => ?_)
    · have hyA : y = A := by
        rcases hmem hy' with rfl | rfl
        · rfl
        · omega
      rw [hyA]
      cases hu : x.used with
      | true => exact Or.inl rfl
      | false => exact Or.inr ((hprev x hx' hxa).2 hu).2
    · obtain ⟨rfl, rfl⟩ := hpair x hx' y hy' hxy
      cases hu : x.used with
      | true => exact Or.inl rfl
      | false => exact Or.inr (hjoin.2 hu).2
    · rw [hlast x hx' hxb]
      cases hu : B.used with
      | true => exact Or.inl rfl
      | false => exact Or.inr ((hnext y hy' hyb).2.2.2 hu).2
  · refine hA.free.replace hA.tiles fun z => ?_
    rw [hfl]
    constructor
    · rintro (h1 | ⟨h1, h2⟩ | ⟨h1, h2⟩)
      · exact Or.inl h1
      · exact Or.inr ⟨A, by simp, h1.symm, h2⟩
      · exact Or.inr ⟨B, by simp, h1.symm, h2⟩
    · rintro (h1 | ⟨c, hc, h1, h2⟩)
      · exact Or.inl h1
      · rcases hmem hc with rfl | rfl
        · exact Or.inr (Or.inl ⟨h1.symm, h2⟩)
        · exact Or.inr (Or.inr ⟨h1.symm, h2⟩)

/-- The words heap code may write: headers, and anything that belongs to a free chunk, its footer
included. -/
def MetaWord (cs : List Chunk) (z : ℕ) : Prop :=
  (∃ c ∈ cs, z = c.addr + 4) ∨ ∃ c ∈ cs, c.used = false ∧ c.addr + 4 ≤ z ∧ z < c.addr + c.size + 4

/-- The links of a chunk on the list. -/
theorem Arena.links_meta (hA : Arena h cs fl Zp Zf) {x : ℕ} (hx : x ∈ fl) :
    MetaWord cs (x + 8) ∧ MetaWord cs (x + 12) := by
  obtain ⟨c, hc, rfl, hu⟩ := (hA.free x).1 hx
  have hb := hA.mem_bounds hc
  exact ⟨Or.inr ⟨c, hc, hu, by omega, by omega⟩, Or.inr ⟨c, hc, hu, by omega, by omega⟩⟩

end

end

end Heap

end Ospp
