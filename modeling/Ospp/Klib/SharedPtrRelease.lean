import Ospp.Klib.SharedPtr

/-!
# Release

What `release` does to handles and blocks.

While objects are being deleted, blocks without a handle are still allocated; `Inv` holds then too.
`Going s t s'` says what a release of `t` that started in `s` has done so far, `Sheds s t s'` what
it has done at its end: exactly the handles in objects of blocks that die are gone.
-/

namespace Ospp

open Cmd

namespace SharedPtr

instance : Finite Cell := inferInstanceAs (Finite (Fin 1073741824))

noncomputable instance : Fintype Cell := Fintype.ofFinite Cell

namespace State

/-- The number of handles that point at a block. -/
noncomputable def handles (s : State) (b : ℕ) : ℕ :=
  (Finset.univ.filter fun c => s.cells c = some (some b)).card

variable {s s' s₁ : State} {t c x m : Cell} {b b₀ : ℕ} {v : Option (Option ℕ)} {blk : PtrBlock}

/-! ## Counting handles -/

@[simp] theorem setCell_blocks : (s.setCell c v).blocks = s.blocks := rfl

@[simp] theorem setBlk_handles {o : Option PtrBlock} :
    (s.setBlk b₀ o).handles b = s.handles b := rfl

@[simp] theorem setCell_self : (s.setCell c v).cells c = v := Function.update_self ..

theorem setCell_ne (h : x ≠ c) : (s.setCell c v).cells x = s.cells x := Function.update_of_ne h ..

@[simp] theorem setBlk_self {o : Option PtrBlock} : (s.setBlk b o).blocks b = o :=
  Function.update_self ..

theorem setBlk_ne {o : Option PtrBlock} (h : b ≠ b₀) : (s.setBlk b₀ o).blocks b = s.blocks b :=
  Function.update_of_ne h ..

theorem handles_setCell : (s.setCell c v).handles b + (if s.cells c = some (some b) then 1 else 0) =
    s.handles b + (if v = some (some b) then 1 else 0) :=
  RefCount.card_update s.cells c v (some (some b))

/-- The end of an empty handle. -/
theorem handles_setCell_none (hc : s.cells c = some none) (b : ℕ) :
    (s.setCell c none).handles b = s.handles b := by
  have := handles_setCell (s := s) (c := c) (v := none) (b := b)
  rw [hc, if_neg (by simp), if_neg (by simp)] at this
  omega

/-- A count does not reach the size of the word. -/
theorem handles_le : s.handles b ≤ 1073741824 := by
  have hcard : Fintype.card Cell = 1073741824 := by
    rw [← Nat.card_eq_fintype_card]
    exact Nat.card_fin 1073741824
  unfold handles
  rw [← hcard]
  exact Finset.card_le_univ _

theorem handles_pos_iff : 0 < s.handles b ↔ ∃ c, s.Points c b := by
  unfold handles
  rw [Finset.card_pos]
  constructor
  · rintro ⟨c, hc⟩
    exact ⟨c, (Finset.mem_filter.1 hc).2⟩
  · rintro ⟨c, hc⟩
    exact ⟨c, Finset.mem_filter.2 ⟨Finset.mem_univ c, hc⟩⟩

theorem handles_mono (h : ∀ x, s'.Points x b → s.Points x b) : s'.handles b ≤ s.handles b := by
  unfold handles
  refine Finset.card_le_card fun x hx => ?_
  rw [Finset.mem_filter] at hx ⊢
  exact ⟨hx.1, h x hx.2⟩

theorem eq_of_handles_one (h1 : s.handles b = 1) (hc : s.Points c b) (hx : s.Points x b) :
    x = c := by
  unfold handles at h1
  exact Finset.card_le_one.1 (le_of_eq h1) x (Finset.mem_filter.2 ⟨Finset.mem_univ x, hx⟩) c
    (Finset.mem_filter.2 ⟨Finset.mem_univ c, hc⟩)

/-! ## The invariant -/

/-- Counts are numbers of handles, handles point at allocated blocks, the handles in an object with
a handle live, and the objects deleted, each once, are those without a handle. -/
structure Inv (s : State) : Prop where
  held : ∀ c b, s.Points c b → (s.blocks b).isSome = true
  count : ∀ b blk, s.blocks b = some blk → blk.refcount = s.handles b
  live : ∀ b, 0 < s.handles b → ∀ m ∈ s.members b, s.Live m
  nodup : ∀ b, (s.members b).Nodup
  apart : ∀ b b' m, m ∈ s.members b → m ∈ s.members b' → b = b'
  fresh : ∀ b, s.next ≤ b → s.blocks b = none
  made : ∀ b blk, s.blocks b = some blk → (b ∈ s.made ↔ blk.ptr.isSome = true)
  made_lt : ∀ b ∈ s.made, b < s.next
  once : ∀ b, s.deleted.count b = if b ∈ s.made ∧ s.handles b = 0 then 1 else 0

theorem members_congr (h : (s'.blocks b).map PtrBlock.ptr = (s.blocks b).map PtrBlock.ptr) :
    s'.members b = s.members b := by
  have hbind : ∀ o : Option PtrBlock, o.bind PtrBlock.ptr = (o.map PtrBlock.ptr).bind id := by
    intro o
    cases o <;> rfl
  unfold members
  rw [hbind, h, ← hbind]

theorem isSome_of_members (hm : m ∈ s.members b) : (s.blocks b).isSome = true := by
  cases hb : s.blocks b with
  | none =>
    rw [members, hb] at hm
    cases hm
  | some blk => rfl

/-- Handles and counts change, objects do not. -/
theorem Inv.recount (h : s.Inv) (hnext : s'.next = s.next) (hmade : s'.made = s.made)
    (hptr : ∀ b, (s'.blocks b).map PtrBlock.ptr = (s.blocks b).map PtrBlock.ptr)
    (hheld : ∀ b, 0 < s'.handles b → 0 < s.handles b)
    (hcount : ∀ b blk, s'.blocks b = some blk → blk.refcount = s'.handles b)
    (hlive : ∀ m, s.Live m → s'.Live m)
    (honce : ∀ b, s'.deleted.count b = if b ∈ s.made ∧ s'.handles b = 0 then 1 else 0) :
    s'.Inv := by
  have hsome : ∀ b, (s'.blocks b).isSome = (s.blocks b).isSome := fun b => by
    rw [← Option.isSome_map (f := PtrBlock.ptr), hptr, Option.isSome_map]
  have hmem := fun b => members_congr (hptr b)
  refine ⟨fun c b hc => ?_, hcount, fun b hb m hm => ?_, fun b => ?_, fun b b' m h1 h2 => ?_,
    fun b hb => ?_, fun b blk hblk => ?_, fun b hb => ?_, ?_⟩
  · obtain ⟨x, hx⟩ := handles_pos_iff.1 (hheld b (handles_pos_iff.2 ⟨c, hc⟩))
    rw [hsome]
    exact h.held x b hx
  · rw [hmem] at hm
    exact hlive m (h.live b (hheld b hb) m hm)
  · rw [hmem]
    exact h.nodup b
  · rw [hmem] at h1 h2
    exact h.apart b b' m h1 h2
  · have := hsome b
    rw [h.fresh b (hnext ▸ hb)] at this
    exact Option.not_isSome_iff_eq_none.1 (by rw [this]; decide)
  · have hp := hptr b
    rw [hblk, Option.map_some] at hp
    obtain ⟨blk', hblk', he⟩ := Option.map_eq_some_iff.1 hp.symm
    rw [hmade, h.made b blk' hblk', he]
  · rw [hnext]
    exact h.made_lt b (hmade ▸ hb)
  · rw [hmade]
    exact honce

/-- The end of an empty handle. -/
theorem Inv.kill (h : s.Inv) (hm : s.cells m = some none)
    (hgone : ∀ b, m ∈ s.members b → s.handles b = 0) : (s.setCell m none).Inv := by
  have hsame := handles_setCell_none hm
  have hpoints : ∀ c b, (s.setCell m none).Points c b → s.Points c b := by
    intro c b hc
    by_cases hcm : c = m
    · rw [Points, hcm, setCell_self] at hc
      cases hc
    · rwa [Points, setCell_ne hcm] at hc
  refine ⟨fun c b hc => h.held c b (hpoints c b hc), fun b blk hblk => ?_, fun b hb x hx => ?_,
    h.nodup, h.apart, h.fresh, h.made, h.made_lt, fun b => ?_⟩
  · rw [hsame]
    exact h.count b blk hblk
  · rw [hsame] at hb
    have hxm : x ≠ m := by
      rintro rfl
      have := hgone b hx
      omega
    rw [Live, setCell_ne hxm]
    exact h.live b hb x hx
  · rw [hsame]
    exact h.once b

/-- A block without a handle is freed. -/
theorem Inv.free (h : s.Inv) (hb : s.handles b₀ = 0) : (s.setBlk b₀ none).Inv := by
  have hmem : ∀ b m, m ∈ (s.setBlk b₀ none).members b → m ∈ s.members b ∧ b ≠ b₀ := by
    intro b m hm
    have hne : b ≠ b₀ := by
      rintro rfl
      rw [members, setBlk_self] at hm
      cases hm
    rw [members, setBlk_ne hne] at hm
    exact ⟨hm, hne⟩
  have hblocks : ∀ b blk, (s.setBlk b₀ none).blocks b = some blk → s.blocks b = some blk := by
    intro b blk hblk
    by_cases hne : b = b₀
    · rw [hne, setBlk_self] at hblk
      cases hblk
    · rwa [setBlk_ne hne] at hblk
  refine ⟨fun c b hc => ?_, fun b blk hblk => h.count b blk (hblocks b blk hblk),
    fun b hp m hm => h.live b hp m (hmem b m hm).1, fun b => ?_,
    fun b b' m h1 h2 => h.apart b b' m (hmem b m h1).1 (hmem b' m h2).1, fun b hn => ?_,
    fun b blk hblk => h.made b blk (hblocks b blk hblk), h.made_lt, h.once⟩
  · have hne : b ≠ b₀ := by
      rintro rfl
      have := handles_pos_iff.2 ⟨c, hc⟩
      rw [setBlk_handles] at this
      omega
    rw [setBlk_ne hne]
    exact h.held c b hc
  · by_cases hne : b = b₀
    · rw [hne, members, setBlk_self]
      exact List.nodup_nil
    · rw [members, setBlk_ne hne]
      exact h.nodup b
  · by_cases hne : b = b₀
    · rw [hne, setBlk_self]
    · rw [setBlk_ne hne]
      exact h.fresh b hn

/-! ## Releasing -/

/-- What a release of `t` has done since `s`: the handles that have gone are doomed, and so are the
blocks. -/
structure Going (s : State) (t : Cell) (s' : State) : Prop where
  next : s'.next = s.next
  made : s'.made = s.made
  cells : ∀ x, s'.cells x = s.cells x ∨ (x = t ∧ s'.cells x = some none) ∨
    (s'.cells x = none ∧ s.Doomed t x)
  empty : ∀ b, ¬ s'.Points t b
  ptr : ∀ b, (s'.blocks b).map PtrBlock.ptr = (s.blocks b).map PtrBlock.ptr ∨
    (s'.blocks b = none ∧ s.Dies t b)
  zero : ∀ b blk, s.blocks b = some blk → s.handles b = 0 → s'.blocks b = some blk
  dead : ∀ b, (s.blocks b).isSome = true → s'.blocks b = none → ∀ m ∈ s.members b, s'.cells m = none

/-- What a release of `t` has done at its end. -/
structure Sheds (s : State) (t : Cell) (s' : State) : Prop extends Going s t s' where
  done : ∀ b, (s'.blocks b).isSome = true → s'.handles b = 0 → s.handles b = 0

theorem Going.points (h : Going s t s') (hx : s'.Points x b) : s.Points x b := by
  rcases h.cells x with h1 | ⟨_, h1⟩ | ⟨h1, _⟩
  · exact h1.symm.trans hx
  · rw [Points, h1] at hx
    cases hx
  · rw [Points, h1] at hx
    cases hx

theorem Going.handles_le (h : Going s t s') : s'.handles b ≤ s.handles b :=
  handles_mono fun _ => h.points

theorem Going.isSome (h : Going s t s') (hb : (s'.blocks b).isSome = true) :
    (s.blocks b).isSome = true := by
  rcases h.ptr b with h1 | ⟨h1, _⟩
  · rw [← Option.isSome_map (f := PtrBlock.ptr), ← h1, Option.isSome_map]
    exact hb
  · rw [h1] at hb
    cases hb

theorem Going.members (h : Going s t s') (hm : m ∈ s'.members b) : m ∈ s.members b := by
  rcases h.ptr b with h1 | ⟨h1, _⟩
  · exact members_congr h1 ▸ hm
  · rw [State.members, h1] at hm
    cases hm

theorem Going.members_eq (h : Going s t s') (hb : (s'.blocks b).isSome = true) :
    s'.members b = s.members b := by
  rcases h.ptr b with h1 | ⟨h1, _⟩
  · exact members_congr h1
  · rw [h1] at hb
    cases hb

/-- A handle that has let go is `t` or doomed. -/
theorem Going.lost (h : Going s t s') (hx : s.Points x b) (hx' : ¬ s'.Points x b) :
    x = t ∨ ∃ b', x ∈ s.members b' ∧ s.Dies t b' := by
  rcases h.cells x with h1 | ⟨h1, _⟩ | ⟨_, b', hb', hx'⟩
  · exact absurd (h1.trans hx) hx'
  · exact Or.inl h1
  · exact Or.inr ⟨b', hx', hb'⟩

/-- What dies with a member of an object that dies. -/
theorem Going.dies (h : Going s t s') (hb₀ : s.Dies t b₀) (hm : m ∈ s.members b₀)
    (hd : s'.Dies m b) : s.Dies t b :=
  RefCount.Dies.trans hb₀ hm (fun _ _ => h.points) (fun _ _ => h.members)
    (fun _ _ hx hx' => h.lost hx hx') hd

/-- The object of the block `b₀` is being deleted: the members `rest` are still to be destroyed. -/
structure Unwinding (s : State) (t : Cell) (b₀ : ℕ) (rest : List Cell) (s' : State) : Prop where
  inv : s'.Inv
  going : Going s t s'
  last : s'.handles b₀ = 0
  block : (s'.blocks b₀).isSome = true
  rest_live : ∀ m ∈ rest, m ∈ s.members b₀ ∧ s'.Live m
  destroyed : ∀ m ∈ s.members b₀, m ∈ rest ∨ s'.cells m = none
  done : ∀ b, b ≠ b₀ → (s'.blocks b).isSome = true → s'.handles b = 0 → s.handles b = 0

/-- What the release of a member leaves of it and of the other members. -/
theorem Unwinding.survives {ms : List Cell} (h : Unwinding s t b₀ ms s₁) (hs : Sheds s₁ m s')
    (hx : x ∈ s₁.members b₀) : s'.cells x = s₁.cells x ∨ (x = m ∧ s'.cells x = some none) := by
  rcases hs.cells x with h1 | h1 | ⟨_, b, hb, hxb⟩
  · exact Or.inl h1
  · exact Or.inr h1
  · -- a block that dies has a handle, and this one has none
    obtain ⟨y, hy⟩ := RefCount.Dies.exists_points hb
    have := handles_pos_iff.2 ⟨y, hy⟩
    rw [h.inv.apart b b₀ x hxb hx, h.last] at this
    omega

/-- **One member.** -/
theorem Unwinding.step {ms : List Cell} (h : Unwinding s t b₀ (m :: ms) s₁) (hb₀ : s.Dies t b₀)
    (hnd : (m :: ms).Nodup) (hs : Sheds s₁ m s') (hi : s'.Inv) :
    Unwinding s t b₀ ms (s'.setCell m none) := by
  have hg := h.going
  obtain ⟨hmem, hml⟩ := h.rest_live m (List.mem_cons_self ..)
  have hmem₁ : ∀ x, x ∈ s.members b₀ ↔ x ∈ s₁.members b₀ := fun x => by
    rw [hg.members_eq h.block]
  have hblock : (s'.blocks b₀).isSome = true := by
    obtain ⟨blk, hblk⟩ := Option.isSome_iff_exists.1 h.block
    rw [hs.zero b₀ blk hblk h.last]
    rfl
  have hlast : s'.handles b₀ = 0 := Nat.eq_zero_of_le_zero (h.last ▸ hs.toGoing.handles_le)
  have hempty : s'.cells m = some none := by
    rcases h.survives hs ((hmem₁ m).1 hmem) with h1 | ⟨_, h1⟩
    · obtain ⟨v, hv⟩ := Option.isSome_iff_exists.1 hml
      cases v with
      | none => exact h1.trans hv
      | some b => exact absurd (h1.trans hv) (hs.empty b)
    · exact h1
  have hsame := handles_setCell_none hempty
  have hdead : ∀ x, s₁.cells x = none → (s'.setCell m none).cells x = none := by
    intro x hx
    by_cases hxm : x = m
    · rw [hxm, setCell_self]
    · rw [setCell_ne hxm]
      rcases hs.cells x with h1 | ⟨h1, _⟩ | ⟨h1, _⟩
      · exact h1.trans hx
      · exact absurd h1 hxm
      · exact h1
  refine ⟨hi.kill hempty fun b hb => ?_, ⟨hs.next.trans hg.next, hs.made.trans hg.made,
    fun x => ?_, fun b hb => ?_, fun b => ?_, fun b blk hblk hz => ?_, fun b hb hn x hx => ?_⟩,
    (hsame b₀).trans hlast, hblock, fun x hx => ?_, fun x hx => ?_, fun b hne hb hz => ?_⟩
  · rw [hi.apart b b₀ m hb (by rw [hs.toGoing.members_eq hblock]; exact (hmem₁ m).1 hmem)]
    exact hlast
  · by_cases hxm : x = m
    · rw [hxm, setCell_self]
      exact Or.inr (Or.inr ⟨rfl, b₀, hb₀, hmem⟩)
    · rw [setCell_ne hxm]
      rcases hs.cells x with h1 | ⟨h1, _⟩ | ⟨h1, b, hb, hxb⟩
      · rw [h1]
        exact hg.cells x
      · exact absurd h1 hxm
      · exact Or.inr (Or.inr ⟨h1, b, hg.dies hb₀ hmem hb, hg.members hxb⟩)
  · by_cases htm : t = m
    · rw [Points, htm, setCell_self] at hb
      cases hb
    · rw [Points, setCell_ne htm] at hb
      exact hg.empty b (hs.toGoing.points hb)
  · rcases hs.ptr b with h1 | ⟨h1, h2⟩
    · rcases hg.ptr b with h3 | ⟨h3, h4⟩
      · exact Or.inl (h1.trans h3)
      · rw [h3, Option.map_none] at h1
        exact Or.inr ⟨Option.map_eq_none_iff.1 h1, h4⟩
    · exact Or.inr ⟨h1, hg.dies hb₀ hmem h2⟩
  · refine hs.zero b blk (hg.zero b blk hblk hz) ?_
    have := hg.handles_le (b := b)
    omega
  · cases hn₁ : s₁.blocks b with
    | none => exact hdead x (hg.dead b hb hn₁ x hx)
    | some blk =>
      have hsome : (s₁.blocks b).isSome = true := by rw [hn₁]; rfl
      have hxd := hs.dead b hsome hn x (by rw [hg.members_eq hsome]; exact hx)
      by_cases hxm : x = m
      · rw [hxm, setCell_self]
      · rw [setCell_ne hxm]
        exact hxd
  · have hxm : x ≠ m := fun e => (List.nodup_cons.1 hnd).1 (e ▸ hx)
    obtain ⟨h1, h2⟩ := h.rest_live x (List.mem_cons_of_mem _ hx)
    refine ⟨h1, ?_⟩
    rw [Live, setCell_ne hxm]
    rcases h.survives hs ((hmem₁ x).1 h1) with h3 | ⟨h3, _⟩
    · rw [h3]
      exact h2
    · exact absurd h3 hxm
  · rcases h.destroyed x hx with h1 | h1
    · rcases List.mem_cons.1 h1 with h1 | h1
      · rw [h1, setCell_self]
        exact Or.inr rfl
      · exact Or.inl h1
    · exact Or.inr (hdead x h1)
  · rw [hsame] at hz
    exact h.done b hne (hs.toGoing.isSome hb) (hs.done b hb hz)

/-- **All members.** The block is freed. -/
theorem Unwinding.finish (h : Unwinding s t b₀ [] s') (hb₀ : s.Dies t b₀)
    (hpos : 0 < s.handles b₀) : (s'.setBlk b₀ none).Inv ∧ Sheds s t (s'.setBlk b₀ none) := by
  have hg := h.going
  refine ⟨h.inv.free h.last, ⟨hg.next, hg.made, hg.cells, hg.empty, fun b => ?_,
    fun b blk hblk hz => ?_, fun b hb hn x hx => ?_⟩, fun b hb hz => ?_⟩
  · by_cases hne : b = b₀
    · rw [hne, setBlk_self]
      exact Or.inr ⟨rfl, hb₀⟩
    · rw [setBlk_ne hne]
      exact hg.ptr b
  · have hne : b ≠ b₀ := by
      rintro rfl
      omega
    rw [setBlk_ne hne]
    exact hg.zero b blk hblk hz
  · by_cases hne : b = b₀
    · subst hne
      exact (h.destroyed x hx).resolve_left (List.not_mem_nil)
    · rw [setBlk_ne hne] at hn
      exact hg.dead b hb hn x hx
  · by_cases hne : b = b₀
    · rw [hne, setBlk_self] at hb
      cases hb
    · rw [setBlk_ne hne] at hb
      exact h.done b hne hb hz

/-- The handle has let go of its block, and the block's count says so. -/
def drop (s : State) (c : Cell) (b : ℕ) (blk : PtrBlock) (d : List ℕ) : State :=
  { (s.setCell c (some none)).setBlk b
      (some { blk with refcount := Word32.sub blk.refcount 1 }) with deleted := d }

section

variable {d : List ℕ}

theorem drop_handles_self (blk : PtrBlock) (d : List ℕ) (hp : s.Points c b) :
    (s.drop c b blk d).handles b + 1 = s.handles b := by
  have := handles_setCell (s := s) (c := c) (v := some none) (b := b)
  rw [hp, if_pos rfl, if_neg (by simp)] at this
  exact this

theorem drop_handles_ne (hp : s.Points c b) {b' : ℕ} (hb : b' ≠ b) :
    (s.drop c b blk d).handles b' = s.handles b' := by
  have := handles_setCell (s := s) (c := c) (v := some none) (b := b')
  rw [hp, if_neg (by simpa using Ne.symm hb), if_neg (by simp)] at this
  exact this

theorem drop_ptr (hblk : s.blocks b = some blk) (b' : ℕ) :
    ((s.drop c b blk d).blocks b').map PtrBlock.ptr = (s.blocks b').map PtrBlock.ptr := by
  show (((s.setCell c (some none)).setBlk b _).blocks b').map _ = _
  by_cases hb : b' = b
  · rw [hb, setBlk_self, hblk]
    rfl
  · rw [setBlk_ne hb]
    rfl

theorem drop_cells (hx : x ≠ c) : (s.drop c b blk d).cells x = s.cells x := setCell_ne hx

theorem drop_self : (s.drop c b blk d).cells c = some none := setCell_self

theorem Going.drop (hp : s.Points c b) (hblk : s.blocks b = some blk) :
    Going s c (s.drop c b blk d) := by
  have hsome : ∀ b', ((s.drop c b blk d).blocks b').isSome = (s.blocks b').isSome := fun b' => by
    rw [← Option.isSome_map (f := PtrBlock.ptr), drop_ptr hblk, Option.isSome_map]
  refine ⟨rfl, rfl, fun x => ?_, fun b' hb' => ?_, fun b' => Or.inl (drop_ptr hblk b'),
    fun b' blk' hblk' hz => ?_, fun b' hb' hn => ?_⟩
  · by_cases hx : x = c
    · rw [hx]
      exact Or.inr (Or.inl ⟨rfl, drop_self⟩)
    · exact Or.inl (drop_cells hx)
  · rw [Points, drop_self] at hb'
    cases hb'
  · have hne : b' ≠ b := by
      rintro rfl
      have := handles_pos_iff.2 ⟨c, hp⟩
      omega
    have hother : (s.drop c b blk d).blocks b' = s.blocks b' := setBlk_ne hne
    rw [hother]
    exact hblk'
  · have := hsome b'
    rw [hn, hb'] at this
    cases this

theorem Inv.drop (h : s.Inv) (hp : s.Points c b) (hblk : s.blocks b = some blk)
    (hd : ∀ b', d.count b' = if b' ∈ s.made ∧ (s.drop c b blk d).handles b' = 0 then 1 else 0) :
    (s.drop c b blk d).Inv := by
  have hgoing : Going s c (s.drop c b blk d) := .drop hp hblk
  refine h.recount rfl rfl (drop_ptr hblk) (fun b' hb' => hb'.trans_le hgoing.handles_le)
    (fun b' blk' hblk' => ?_) (fun m hm => ?_) hd
  · by_cases hb : b' = b
    · subst hb
      have hself : (s.drop c b' blk d).blocks b' = some _ := setBlk_self
      rw [hself] at hblk'
      cases hblk'
      have hcount := drop_handles_self blk d hp
      have hle := handles_le (s := s) (b := b')
      show Word32.sub blk.refcount 1 = _
      rw [h.count b' blk hblk, Word32.sub_eq (by omega) (by omega)]
      omega
    · have hother : (s.drop c b blk d).blocks b' = s.blocks b' := setBlk_ne hb
      rw [hother] at hblk'
      rw [h.count b' blk' hblk', drop_handles_ne hp hb]
  · by_cases hm' : m = c
    · rw [Live, hm', drop_self]
      rfl
    · rw [Live, drop_cells hm']
      exact hm

end

/-- Nothing to let go of. -/
theorem Sheds.of_empty (hc : s.cells c = some none) : Sheds s c s := by
  refine ⟨⟨rfl, rfl, fun x => Or.inl rfl, fun b hb => ?_, fun b => Or.inl rfl,
    fun b blk hblk _ => hblk, fun b hb hn => ?_⟩, fun b _ hz => hz⟩
  · rw [Points, hc] at hb
    cases hb
  · rw [hn] at hb
    cases hb

/-- One handle of several lets go. -/
theorem Inv.share (h : s.Inv) (hp : s.Points c b) (hblk : s.blocks b = some blk)
    (h1 : s.handles b ≠ 1) :
    (s.drop c b blk s.deleted).Inv ∧ Sheds s c (s.drop c b blk s.deleted) := by
  have hself := drop_handles_self blk s.deleted hp
  refine ⟨h.drop hp hblk fun b' => ?_, .drop hp hblk, fun b' _ hz => ?_⟩
  · rw [h.once]
    by_cases hne : b' = b
    · rw [hne, if_neg (fun hb => by omega), if_neg (fun hb => by omega)]
    · rw [drop_handles_ne hp hne]
  · by_cases hne : b' = b
    · rw [hne] at hz
      omega
    · rwa [drop_handles_ne hp hne] at hz

/-! ## The recursion -/

/-- The number of blocks with a handle. -/
noncomputable def load (s : State) : ℕ :=
  ((Finset.range s.next).filter fun b => 0 < s.handles b).card

theorem load_le : s.load ≤ s.next := by
  refine (Finset.card_le_card (Finset.filter_subset _ _)).trans ?_
  rw [Finset.card_range]

/-- A release inside a release has one block less to go through. -/
theorem Going.load_lt (h : Going s t s') (hb₀ : b₀ < s.next) (hpos : 0 < s.handles b₀)
    (hlast : s'.handles b₀ = 0) : s'.load < s.load := by
  refine Finset.card_lt_card (Finset.ssubset_iff_subset_ne.2 ⟨fun b hb => ?_, fun he => ?_⟩)
  · rw [Finset.mem_filter] at hb ⊢
    rw [← h.next]
    exact ⟨hb.1, hb.2.trans_le h.handles_le⟩
  · have hmem : b₀ ∈ (Finset.range s.next).filter fun b => 0 < s.handles b :=
      Finset.mem_filter.2 ⟨Finset.mem_range.2 hb₀, hpos⟩
    rw [← he, Finset.mem_filter] at hmem
    omega

end State

open State

section

variable {s s₁ : State} {t c : Cell} {b b₀ : ℕ} {blk : PtrBlock} {v : Option ℕ} {err : Prop}

theorem wp_block {Q : Option ℕ → State → Prop} (hlive : ∀ v, s.cells c = some v → Q v s)
    (hdead : s.cells c = none → err) : Wp (fun _ => True) err (block c) Q s := by
  unfold block
  refine .bind (.get ?_)
  cases hc : s.cells c with
  | none => exact .fail (hdead hc)
  | some v => exact .pure (hlive v hc)

theorem wp_setBlock {Q : Unit → State → Prop} (hlive : s.Live c → Q () (s.setCell c (some v)))
    (hdead : s.cells c = none → err) : Wp (fun _ => True) err (setBlock c v) Q s := by
  unfold setBlock
  refine .bind (.get ?_)
  cases hc : s.cells c with
  | none => exact .fail (hdead hc)
  | some w => exact .modify (hlive (by rw [Live, hc]; rfl))

theorem wp_fetchSub {Q : PtrBlock → State → Prop} (hblk : s.blocks b = some blk)
    (hQ : Q blk (s.setBlk b (some { blk with refcount := Word32.sub blk.refcount 1 }))) :
    Wp (fun _ => True) err (fetchSub b) Q s := by
  unfold fetchSub
  refine .bind (.get ?_)
  rw [hblk]
  exact .bind (.modify (.pure hQ))

theorem wp_fetchAdd {Q : Unit → State → Prop} (hblk : s.blocks b = some blk)
    (hQ : Q () (s.setBlk b (some { blk with refcount := Word32.add blk.refcount 1 }))) :
    Wp (fun _ => True) err (fetchAdd b) Q s := by
  unfold fetchAdd
  refine .bind (.get ?_)
  rw [hblk]
  exact .modify hQ

/-- What a release does to an invariant state. -/
def Releases (rel : Cell → P Unit) (fuel : ℕ) : Prop :=
  ∀ s c, s.Inv → s.Live c → s.load < fuel →
    Wp (fun _ => True) False (rel c) (fun _ s' => s'.Inv ∧ Sheds s c s') s

theorem wp_destroyAll {rel : Cell → P Unit} {fuel : ℕ} (hrel : Releases rel fuel)
    (hb₀ : s.Dies t b₀) (hlt : b₀ < s.next) (hpos : 0 < s.handles b₀) (hload : s.load ≤ fuel) :
    ∀ {ms : List Cell} {s₁ : State}, Unwinding s t b₀ ms s₁ → ms.Nodup →
      Wp (fun _ => True) False (destroyAll rel ms) (fun _ s' => Unwinding s t b₀ [] s') s₁ := by
  intro ms
  induction ms with
  | nil => exact fun h _ => .pure h
  | cons m ms ih =>
    intro s₁ h hnd
    have hl := h.going.load_lt hlt hpos h.last
    refine .bind ((hrel s₁ m h.inv (h.rest_live m (List.mem_cons_self ..)).2 (by omega)).mono ?_)
    intro _ s' ⟨hi, hs⟩
    exact .bind (.modify (ih (h.step hb₀ hnd hs hi) (List.nodup_cons.1 hnd).2))

/-- The deletion of an object starts. -/
theorem State.Unwinding.start {d : List ℕ} {rest : List Cell} (h : s.Inv) (hp : s.Points c b)
    (hblk : s.blocks b = some blk) (h1 : s.handles b = 1)
    (hd : ∀ b', d.count b' = if b' ∈ s.made ∧ (s.drop c b blk d).handles b' = 0 then 1 else 0)
    (hrest : ∀ m, m ∈ rest ↔ m ∈ s.members b) : Unwinding s c b rest (s.drop c b blk d) := by
  refine ⟨h.drop hp hblk hd, .drop hp hblk, ?_, ?_, fun m hm => ?_, fun m hm => ?_,
    fun b' hne _ hz => ?_⟩
  · have := drop_handles_self blk d hp
    omega
  · have hself : (s.drop c b blk d).blocks b = some _ := setBlk_self
    rw [hself]
    rfl
  · have hm' := (hrest m).1 hm
    refine ⟨hm', ?_⟩
    by_cases hmc : m = c
    · rw [Live, hmc, drop_self]
      rfl
    · rw [Live, drop_cells hmc]
      exact h.live b (by omega) m hm'
  · exact Or.inl ((hrest m).2 hm)
  · rwa [drop_handles_ne hp hne] at hz

/-- The last handle lets go: the object, if there is one, and the block. -/
theorem wp_deleteLast {rel : Cell → P Unit} {fuel : ℕ} (hrel : Releases rel fuel) (h : s.Inv)
    (hp : s.Points c b) (hblk : s.blocks b = some blk) (h1 : s.handles b = 1)
    (hload : s.load ≤ fuel) :
    Wp (fun _ => True) False
      (deleteObject rel b blk.ptr >>= fun _ => modify fun s => s.setBlk b none)
      (fun _ s' => s'.Inv ∧ Sheds s c s') (s.drop c b blk s.deleted) := by
  have hpos : 0 < s.handles b := by omega
  have hlt : b < s.next := by
    by_contra hge
    rw [h.fresh b (by omega)] at hblk
    cases hblk
  have hdies : s.Dies c b := .of_last hp fun x hx => eq_of_handles_one h1 hp hx
  have hmem : s.members b = blk.ptr.getD [] := by rw [State.members, hblk, Option.bind_some]
  cases hptr : blk.ptr with
  | none =>
    have hmade : b ∉ s.made := fun hb => by
      rw [h.made b blk hblk, hptr] at hb
      cases hb
    have hstart : Unwinding s c b [] (s.drop c b blk s.deleted) := by
      refine .start h hp hblk h1 (fun b' => ?_) fun m => by rw [hmem, hptr, Option.getD_none]
      rw [h.once]
      by_cases hne : b' = b
      · rw [hne, if_neg (fun hb => hmade hb.1), if_neg (fun hb => hmade hb.1)]
      · rw [drop_handles_ne hp hne]
    exact .bind (.pure (.modify (hstart.finish hdies hpos)))
  | some ms =>
    rw [hptr, Option.getD_some] at hmem
    have hmade : b ∈ s.made := by
      rw [h.made b blk hblk, hptr]
      rfl
    have hstart : Unwinding s c b ms.reverse (s.drop c b blk (s.deleted ++ [b])) := by
      refine .start h hp hblk h1 (fun b' => ?_) fun m => by rw [hmem, List.mem_reverse]
      rw [List.count_append, h.once]
      by_cases hne : b' = b
      · have hself := drop_handles_self blk (s.deleted ++ [b]) hp
        rw [hne, List.count_singleton_self, if_neg (fun hb => by omega),
          if_pos ⟨hmade, by omega⟩]
      · rw [List.count_eq_zero.2 (by simpa using hne), drop_handles_ne hp hne, Nat.add_zero]
    have hnd : ms.reverse.Nodup := List.nodup_reverse.2 (hmem ▸ h.nodup b)
    refine .bind (.bind (.modify ?_))
    refine (wp_destroyAll hrel hdies hlt hpos hload hstart hnd).mono fun _ s' hun => ?_
    exact .modify (hun.finish hdies hpos)

/-- **`release`.** -/
theorem wp_releaseFuel : ∀ fuel, Releases (releaseFuel fuel) fuel := by
  intro fuel
  induction fuel with
  | zero => exact fun s c _ _ hl => absurd hl (Nat.not_lt_zero _)
  | succ fuel ih =>
    intro s c h hlive hload
    have hdead : s.cells c ≠ none := fun hn => by
      rw [Live, hn] at hlive
      cases hlive
    unfold releaseFuel
    refine .bind (wp_block (fun v hv => ?_) hdead)
    cases v with
    | none => exact .pure ⟨h, .of_empty hv⟩
    | some b =>
      obtain ⟨blk, hblk⟩ := Option.isSome_iff_exists.1 (h.held c b hv)
      have hcount := h.count b blk hblk
      refine .bind (wp_setBlock (fun _ => ?_) hdead)
      refine .bind (wp_fetchSub hblk (.ite (fun h1 => ?_) fun h1 => ?_))
      · exact wp_deleteLast ih h hv hblk (hcount ▸ h1) (by omega)
      · exact .pure (h.share hv hblk fun hone => h1 (hcount.trans hone))

theorem wp_release (h : s.Inv) (hlive : s.Live c) :
    Wp (fun _ => True) False (release c) (fun _ s' => s'.Inv ∧ Sheds s c s') s := by
  unfold release
  refine .bind (.get (wp_releaseFuel _ s c h hlive ?_))
  have := load_le (s := s)
  omega

end

end SharedPtr

end Ospp
