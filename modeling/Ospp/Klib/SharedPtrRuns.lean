import Ospp.Klib.SharedPtrRelease

/-!
# Ownership

Which programs keep the counts right. Assignment and `reset` first let go of the block of the handle
assigned to and only then look at the handle assigned from; `State.Spares` says that neither of the
two is in an object that goes with that block. A program all of whose steps are such is safe, and
one with another step accesses a handle that has been destroyed.
-/

namespace Ospp

open Cmd Trans

namespace SharedPtr

namespace State

variable {s s' : State} {t c other x : Cell} {b : ℕ} {blk : PtrBlock}

/-! ## After a release -/

/-- The blocks that die are freed. -/
theorem Sheds.freed (hs : Sheds s t s') (hd : s.Dies t b) : s'.blocks b = none := by
  refine hd (fun b => s'.blocks b = none) fun b hb => ?_
  by_contra hne
  have hsome := Option.isSome_iff_ne_none.2 hne
  have hpos : 0 < s'.handles b := by
    by_contra h0
    have := handles_pos_iff.2 hb.1
    have := hs.done b hsome (by omega)
    omega
  obtain ⟨x, hx⟩ := handles_pos_iff.1 hpos
  have hxt : x ≠ t := fun e => hs.empty b (e ▸ hx)
  obtain ⟨b', hxb, hn⟩ := hb.2 x (hs.points hx) hxt
  have hdead := hs.dead b' (isSome_of_members hxb) hn x hxb
  rw [Points, hdead] at hx
  cases hx

/-- **Exactly the doomed handles are gone.** -/
theorem Sheds.dead_iff (hs : Sheds s t s') (hx : s.Live x) : s'.cells x = none ↔ s.Doomed t x := by
  constructor
  · intro hn
    rcases hs.cells x with h1 | ⟨_, h1⟩ | ⟨_, h1⟩
    · rw [Live, ← h1, hn] at hx
      cases hx
    · rw [hn] at h1
      cases h1
    · exact h1
  · rintro ⟨b, hb, hxb⟩
    exact hs.dead b (isSome_of_members hxb) (hs.freed hb) x hxb

/-- Between two steps of a program: no block without a handle. -/
structure Sound (s : State) : Prop extends Inv s where
  used : ∀ b, (s.blocks b).isSome = true → 0 < s.handles b

theorem Sheds.sound (hs : Sheds s t s') (h : s.Sound) (hi : s'.Inv) : s'.Sound := by
  refine ⟨hi, fun b hb => ?_⟩
  by_contra h0
  have h1 := h.used b (hs.isSome hb)
  have h2 := hs.done b hb (by omega)
  omega

/-- Every handle in an object lives. -/
theorem Sound.live_of_members (h : s.Sound) (hx : x ∈ s.members b) : s.Live x :=
  h.live b (h.used b (isSome_of_members hx)) x hx

theorem Sound.not_members_of_free (h : s.Sound) (hf : s.Free x) : x ∉ s.members b := by
  by_cases hb : b < s.next
  · exact hf b hb
  · intro hx
    have := isSome_of_members hx
    rw [h.fresh b (by omega)] at this
    cases this

/-! ## The steps -/

theorem live_setCell {v : Option ℕ} (hx : s.Live x) : (s.setCell c (some v)).Live x := by
  by_cases hxc : x = c
  · rw [Live, hxc, setCell_self]
    rfl
  · rw [Live, setCell_ne hxc]
    exact hx

/-- A handle that points at no block gets a value. -/
theorem handles_set (ht : ∀ b, ¬ s.Points t b) (v : Option ℕ) (b : ℕ) :
    (s.setCell t (some v)).handles b = s.handles b + (if v = some b then 1 else 0) := by
  have hcount := handles_setCell (s := s) (c := t) (v := some v) (b := b)
  have hne : s.cells t ≠ some (some b) := ht b
  rw [if_neg hne] at hcount
  simp only [Option.some.injEq] at hcount
  omega

/-- A handle becomes, or stays, an empty one. -/
theorem Sound.settle (h : s.Sound) (ht : ∀ b, ¬ s.Points t b) :
    (s.setCell t (some none)).Sound := by
  have hsame : ∀ b, (s.setCell t (some none)).handles b = s.handles b := handles_set ht none
  refine ⟨h.toInv.recount rfl rfl (fun _ => rfl) (fun b hb => ?_) (fun b blk hblk => ?_)
    (fun m hm => live_setCell hm) fun b => ?_, fun b hb => ?_⟩
  · rwa [hsame] at hb
  · rw [hsame]
    exact h.count b blk hblk
  · rw [hsame]
    exact h.once b
  · rw [hsame]
    exact h.used b hb

/-- A handle takes a share in a block that has one already. -/
theorem Sound.gain (h : s.Sound) (ht : ∀ b, ¬ s.Points t b) (hp : s.Points other b)
    (hblk : s.blocks b = some blk) : ((s.setCell t (some (some b))).setBlk b
      (some { blk with refcount := Word32.add blk.refcount 1 })).Sound := by
  have hcount : ∀ b', (s.setCell t (some (some b))).handles b' =
      s.handles b' + (if b = b' then 1 else 0) := fun b' => by
    rw [handles_set ht]
    simp only [Option.some.injEq]
  have hpos := handles_pos_iff.2 ⟨other, hp⟩
  have hnew : (s.setCell t (some (some b))).handles b ≤ 1073741824 := handles_le
  have hzero : ∀ b', (s.setCell t (some (some b))).handles b' = 0 ↔ s.handles b' = 0 := fun b' => by
    rw [hcount]
    split_ifs with hb
    · rw [hb] at hpos
      exact ⟨fun h => h.elim, fun h => by omega⟩
    · exact Iff.rfl
  refine ⟨h.toInv.recount rfl rfl (fun b' => ?_) (fun b' hb' => ?_) (fun b' blk' hblk' => ?_)
    (fun m hm => live_setCell hm) fun b' => ?_, fun b' hb' => ?_⟩
  · by_cases hb : b' = b
    · rw [hb, setBlk_self, hblk]
      rfl
    · rw [setBlk_ne hb]
      rfl
  · rw [setBlk_handles] at hb'
    have := hzero b'
    omega
  · rw [setBlk_handles]
    by_cases hb : b' = b
    · rw [hb, setBlk_self] at hblk'
      cases hblk'
      have := hcount b
      rw [if_pos rfl] at this
      rw [hb, this, h.count b blk hblk, Word32.add_eq (by omega)]
    · rw [setBlk_ne hb, setCell_blocks] at hblk'
      rw [hcount, if_neg (Ne.symm hb), h.count b' blk' hblk', Nat.add_zero]
  · rw [setBlk_handles]
    simp only [hzero]
    exact h.once b'
  · rw [setBlk_handles]
    have hsome : (s.blocks b').isSome = true := by
      by_cases hb : b' = b
      · rw [hb, hblk]
        rfl
      · rwa [setBlk_ne hb] at hb'
    have := h.used b' hsome
    have := hzero b'
    omega

/-- A handle takes over the share of another. -/
theorem Sound.transfer (h : s.Sound) (ht : ∀ b, ¬ s.Points t b) (hp : s.Points other b) :
    ((s.setCell t (some (some b))).setCell other (some none)).Sound := by
  have hto : other ≠ t := fun e => ht b (e ▸ hp)
  have hsame : ∀ b', ((s.setCell t (some (some b))).setCell other (some none)).handles b' =
      s.handles b' := fun b' => by
    have h1 := handles_set ht (some b) b'
    have h2 := handles_setCell (s := s.setCell t (some (some b))) (c := other) (v := some none)
      (b := b')
    simp only [Option.some.injEq] at h1
    rw [setCell_ne hto, hp, if_neg (show (some none : Option (Option ℕ)) ≠ some (some b') by simp)]
      at h2
    simp only [Option.some.injEq] at h2
    omega
  refine ⟨h.toInv.recount rfl rfl (fun _ => rfl) (fun b' hb' => ?_) (fun b' blk hblk => ?_)
    (fun m hm => live_setCell (live_setCell hm)) fun b' => ?_, fun b' hb' => ?_⟩
  · rwa [hsame] at hb'
  · rw [hsame]
    exact h.count b' blk hblk
  · rw [hsame]
    exact h.once b'
  · rw [hsame]
    exact h.used b' hb'

/-- The end of an empty handle that is in no object. -/
theorem Sound.kill (h : s.Sound) (ht : s.cells t = some none) (hfree : ∀ b, t ∉ s.members b) :
    (s.setCell t none).Sound := by
  refine ⟨h.toInv.kill ht fun b hb => absurd hb (hfree b), fun b hb => ?_⟩
  rw [handles_setCell_none ht]
  exact h.used b hb

/-! ## New objects -/

/-- The state with the handles of a new object. -/
def withObject (s : State) : Option (List Cell) → State
  | none => s
  | some ms => { s with cells := fun c => if c ∈ ms then some none else s.cells c }

section

variable {ptr : Option (List Cell)}

@[simp] theorem withObject_blocks : (s.withObject ptr).blocks = s.blocks := by cases ptr <;> rfl

@[simp] theorem withObject_next : (s.withObject ptr).next = s.next := by cases ptr <;> rfl

@[simp] theorem withObject_made : (s.withObject ptr).made = s.made := by cases ptr <;> rfl

@[simp] theorem withObject_deleted : (s.withObject ptr).deleted = s.deleted := by
  cases ptr <;> rfl

@[simp] theorem withObject_members : (s.withObject ptr).members b = s.members b := by
  cases ptr <;> rfl

theorem withObject_live {ms : List Cell} (hx : x ∈ ms) : (s.withObject (some ms)).Live x := by
  show Option.isSome (if x ∈ ms then some none else s.cells x) = true
  rw [if_pos hx]
  rfl

theorem withObject_cells (hx : s.Live x) (hf : s.Fresh ptr) :
    (s.withObject ptr).cells x = s.cells x := by
  cases ptr with
  | none => rfl
  | some ms => exact if_neg fun hm => (hf ms rfl).2 x hm hx

theorem withObject_points (hf : s.Fresh ptr) : (s.withObject ptr).Points = s.Points := by
  funext x b
  cases ptr with
  | none => rfl
  | some ms =>
    by_cases hx : x ∈ ms
    · have hnone : s.cells x = none := by
        have := (hf ms rfl).2 x hx
        rwa [Live, Option.not_isSome_iff_eq_none] at this
      show ((if x ∈ ms then some none else s.cells x) = some (some b)) = (s.cells x = some (some b))
      rw [if_pos hx, hnone]
      simp
    · show ((if x ∈ ms then some none else s.cells x) = some (some b)) = _
      rw [if_neg hx]
      rfl

theorem withObject_doomed (hf : s.Fresh ptr) :
    (s.withObject ptr).Doomed t x ↔ s.Doomed t x := by
  unfold Doomed Dies
  rw [withObject_points hf]
  simp only [withObject_members]

theorem Sound.withObject (h : s.Sound) (hf : s.Fresh ptr) : (s.withObject ptr).Sound := by
  have hsame : ∀ b, (s.withObject ptr).handles b = s.handles b := fun b => by
    have hp := withObject_points (s := s) hf
    refine le_antisymm (handles_mono fun x hx => ?_) (handles_mono fun x hx => ?_)
    · rwa [hp] at hx
    · rwa [hp]
  refine ⟨h.toInv.recount (by simp) (by simp) (by simp) (fun b hb => ?_) (fun b blk hblk => ?_)
    (fun m hm => ?_) fun b => ?_, fun b hb => ?_⟩
  · rwa [hsame] at hb
  · rw [hsame]
    exact h.count b blk (by simpa using hblk)
  · rw [Live, withObject_cells hm hf]
    exact hm
  · rw [hsame, withObject_deleted]
    exact h.once b
  · rw [hsame]
    exact h.used b (by simpa using hb)

/-- The state with the handle as the first one of a new block. -/
def adopt (s : State) (t : Cell) (ptr : Option (List Cell)) : State :=
  State.setCell { s.setBlk s.next (some ⟨ptr, 1⟩) with
    next := s.next + 1
    made := if ptr.isSome then s.made ++ [s.next] else s.made } t (some (some s.next))

theorem adopt_blocks : (s.adopt t ptr).blocks s.next = some ⟨ptr, 1⟩ := setBlk_self

theorem adopt_blocks_ne (hb : b ≠ s.next) : (s.adopt t ptr).blocks b = s.blocks b := setBlk_ne hb

theorem adopt_made (b : ℕ) :
    b ∈ (s.adopt t ptr).made ↔ b ∈ s.made ∨ (b = s.next ∧ ptr.isSome = true) := by
  show b ∈ (if ptr.isSome = true then s.made ++ [s.next] else s.made) ↔ _
  split_ifs with hp
  · rw [List.mem_append, List.mem_singleton]
    simp [hp]
  · simp [hp]

theorem adopt_handles (ht : ∀ b, ¬ s.Points t b) (ptr : Option (List Cell)) (b : ℕ) :
    (s.adopt t ptr).handles b = s.handles b + (if s.next = b then 1 else 0) := by
  have := handles_set ht (some s.next) b
  simp only [Option.some.injEq] at this
  exact this

theorem adopt_members_ne (hb : b ≠ s.next) : (s.adopt t ptr).members b = s.members b := by
  unfold members
  rw [adopt_blocks_ne hb]

theorem adopt_members : (s.adopt t ptr).members s.next = ptr.getD [] := by
  rw [members, adopt_blocks]
  rfl

/-- The next block has no handle and no object. -/
theorem Sound.unused (h : s.Sound) : s.handles s.next = 0 ∧ s.next ∉ s.made := by
  refine ⟨?_, fun hb => absurd (h.made_lt _ hb) (lt_irrefl _)⟩
  by_contra h0
  obtain ⟨x, hx⟩ := handles_pos_iff.1 (Nat.pos_of_ne_zero h0)
  have := h.held x s.next hx
  rw [h.fresh s.next (le_refl _)] at this
  cases this

theorem Sound.adopt (h : s.Sound) (ht : ∀ b, ¬ s.Points t b)
    (hms : ∀ ms ∈ ptr, ms.Nodup ∧ ∀ m ∈ ms, s.Live m ∧ ∀ b, m ∉ s.members b) :
    (s.adopt t ptr).Sound := by
  obtain ⟨hzero, hnew⟩ := h.unused
  have hcount := adopt_handles ht ptr
  have hmem : (s.adopt t ptr).members s.next = ptr.getD [] := adopt_members
  -- the handles in the new object are in no other
  have hobj : ∀ m ∈ ptr.getD [], s.Live m ∧ ∀ b, m ∉ s.members b := by
    intro m hm
    cases hptr : ptr with
    | none =>
      rw [hptr] at hm
      cases hm
    | some ms =>
      rw [hptr] at hm
      exact (hms ms hptr).2 m hm
  refine ⟨⟨fun c b hc => ?_, fun b blk hblk => ?_, fun b hb m hm => ?_, fun b => ?_,
    fun b b' m h1 h2 => ?_, fun b hb => ?_, fun b blk hblk => ?_, fun b hb => ?_, fun b => ?_⟩,
    fun b hb => ?_⟩
  · by_cases hb : b = s.next
    · rw [hb, adopt_blocks]
      rfl
    · rw [adopt_blocks_ne hb]
      refine h.held c b ?_
      by_cases hct : c = t
      · rw [hct, Points] at hc
        exact absurd ((Option.some.inj (Option.some.inj (setCell_self.symm.trans hc))).symm) hb
      · exact (setCell_ne hct).symm.trans hc
  · by_cases hb : b = s.next
    · rw [hb, adopt_blocks] at hblk
      cases hblk
      rw [hcount, hb, hzero, if_pos rfl]
    · rw [adopt_blocks_ne hb] at hblk
      rw [hcount, if_neg (Ne.symm hb), Nat.add_zero]
      exact h.count b blk hblk
  · refine live_setCell (s := { s.setBlk s.next (some ⟨ptr, 1⟩) with next := _, made := _ }) ?_
    by_cases hbn : b = s.next
    · rw [hbn, hmem] at hm
      exact (hobj m hm).1
    · rw [adopt_members_ne hbn] at hm
      exact h.live_of_members hm
  · by_cases hbn : b = s.next
    · rw [hbn, hmem]
      cases hptr : ptr with
      | none => exact List.nodup_nil
      | some ms => exact (hms ms hptr).1
    · rw [adopt_members_ne hbn]
      exact h.nodup b
  · by_cases hbn : b = s.next
    · by_cases hbn' : b' = s.next
      · exact hbn.trans hbn'.symm
      · rw [hbn, hmem] at h1
        rw [adopt_members_ne hbn'] at h2
        exact absurd h2 ((hobj m h1).2 b')
    · rw [adopt_members_ne hbn] at h1
      by_cases hbn' : b' = s.next
      · rw [hbn', hmem] at h2
        exact absurd h1 ((hobj m h2).2 b)
      · rw [adopt_members_ne hbn'] at h2
        exact h.apart b b' m h1 h2
  · have hb' : s.next + 1 ≤ b := hb
    rw [adopt_blocks_ne (by omega)]
    exact h.fresh b (by omega)
  · rw [adopt_made]
    by_cases hbn : b = s.next
    · rw [hbn, adopt_blocks] at hblk
      cases hblk
      simp [hbn, hnew]
    · rw [adopt_blocks_ne hbn] at hblk
      rw [← h.made b blk hblk]
      simp [hbn]
  · show b < s.next + 1
    rcases (adopt_made b).1 hb with h1 | ⟨h1, _⟩
    · have := h.made_lt b h1
      omega
    · omega
  · have honce := h.once b
    rw [show (s.adopt t ptr).deleted = s.deleted from rfl, honce]
    by_cases hbn : b = s.next
    · have hb := hcount b
      rw [if_pos hbn.symm] at hb
      rw [if_neg (fun h => hnew (hbn ▸ h.1)), if_neg (fun h => by omega)]
    · have hb := hcount b
      rw [if_neg (Ne.symm hbn), Nat.add_zero] at hb
      simp only [adopt_made, hb, hbn, false_and, or_false]
  · rw [hcount]
    by_cases hbn : b = s.next
    · rw [if_pos hbn.symm]
      omega
    · rw [adopt_blocks_ne hbn] at hb
      have := h.used b hb
      omega

end

theorem not_points (hc : ¬ s.Live c) : ∀ b, ¬ s.Points c b := by
  intro b hb
  rw [Live, hb] at hc
  exact hc rfl

/-- A handle takes what another one has and leaves that empty. -/
theorem Sound.take (h : s.Sound) (ht : ∀ b, ¬ s.Points t b) (hne : other ≠ t) {v : Option ℕ}
    (hv : s.cells other = some v) :
    ((s.setCell t (some v)).setCell other (some none)).Sound := by
  cases v with
  | none =>
    refine (h.settle ht).settle fun b hb => ?_
    rw [Points, setCell_ne hne, hv] at hb
    cases hb
  | some b => exact h.transfer ht hv

end State

open State

section

variable {s : State} {c other : Cell} {v : Option ℕ} {ptr : Option (List Cell)} {err : Prop}

theorem wp_released (h : s.Sound) (hc : s.Live c) {Q : Unit → State → Prop}
    (hQ : ∀ s', Sheds s c s' → s'.Sound → Q () s') : Wp (fun _ => True) err (release c) Q s :=
  ((wp_release h.toInv hc).mono fun _ s' ⟨hi, hs⟩ => hQ s' hs (hs.sound h hi)).weaken

theorem wp_addRef (h : s.Sound) (hc : ∀ b, ¬ s.Points c b) (hv : s.cells other = some v)
    {Q : Unit → State → Prop} (hQ : ∀ s', s'.Sound → Q () s') :
    Wp (fun _ => True) err (addRef v) Q (s.setCell c (some v)) := by
  cases v with
  | none => exact .pure (hQ _ (h.settle hc))
  | some b =>
    obtain ⟨blk, hblk⟩ := Option.isSome_iff_exists.1 (h.held other b hv)
    exact wp_fetchAdd (s := s.setCell c (some (some b))) hblk (hQ _ (h.gain hc hv hblk))

theorem wp_newObject {Q : Unit → State → Prop} (hQ : Q () (s.withObject ptr)) :
    Wp (fun _ => True) err (newObject ptr) Q s := by
  cases ptr with
  | none => exact .pure hQ
  | some ms => exact .modify hQ

/-- The handles in a new object. -/
theorem State.Sound.object (h : s.Sound) (hf : s.Fresh ptr) :
    ∀ ms ∈ ptr, ms.Nodup ∧ ∀ m ∈ ms, (s.withObject ptr).Live m ∧ ∀ b, m ∉ s.members b := by
  intro ms hms
  refine ⟨(hf ms hms).1, fun m hm => ⟨?_, fun b hb => ?_⟩⟩
  · rw [Option.mem_def.1 hms]
    exact withObject_live hm
  · exact (hf ms hms).2 m hm (h.live_of_members hb)

/-! ## The acts -/

theorem wp_ctorPtr (h : s.Sound) (hc : ¬ s.Live c) (hf : s.Fresh ptr) :
    Wp (fun _ => True) err (Act.ctorPtr c ptr).run (fun _ s' => s'.Sound) s := by
  refine .bind (wp_newObject ?_)
  unfold SharedPtr.ctorPtr newBlock place
  refine .bind (.bind (.get (.bind (.modify (.pure ?_)))))
  refine .modify ((h.withObject hf).adopt ?_ fun ms hms => ?_)
  · rw [withObject_points hf]
    exact not_points hc
  · simpa only [withObject_members] using h.object hf ms hms

theorem wp_ctorCopy (h : s.Sound) (hc : ¬ s.Live c) (hother : s.Live other) :
    Wp (fun _ => True) err (ctorCopy c other) (fun _ s' => s'.Sound) s := by
  refine .bind (wp_block (fun v hv => .bind (.modify ?_)) fun hn => ?_)
  · exact wp_addRef h (not_points hc) hv fun s' hs' => hs'
  · rw [Live, hn] at hother
    cases hother

theorem wp_ctorMove (h : s.Sound) (hc : ¬ s.Live c) (hother : s.Live other) :
    Wp (fun _ => True) err (ctorMove c other) (fun _ s' => s'.Sound) s := by
  have hne : other ≠ c := fun e => hc (e ▸ hother)
  refine .bind (wp_block (fun v hv => .bind (.modify ?_)) fun hn => ?_)
  · refine wp_setBlock (s := s.setCell c (some v)) (fun _ => h.take (not_points hc) hne hv) ?_
    rw [setCell_ne hne, hv]
    exact fun hn => by cases hn
  · rw [Live, hn] at hother
    cases hother

/-- A release, and what it means for the two handles of an assignment. -/
theorem wp_assignRest (h : s.Sound) (hc : s.Live c) (hother : s.Live other) {k : Option ℕ → P Unit}
    {Q : Unit → State → Prop} (hd : s.Doomed c c ∨ s.Doomed c other → err)
    (hk : ∀ (s₁ : State) v, s₁.Sound → (∀ b, ¬ s₁.Points c b) → s₁.cells other = some v →
      ¬ s.Doomed c c ∧ ¬ s.Doomed c other →
      Wp (fun _ => True) err (k v) Q (s₁.setCell c (some v))) :
    Wp (fun _ => True) err
      (release c >>= fun _ => block other >>= fun v => setBlock c v >>= fun _ => k v) Q s := by
  refine .bind (wp_released h hc fun s₁ hs hS => ?_)
  refine .bind (wp_block (fun v hv => ?_) fun hn => hd (Or.inr ((hs.dead_iff hother).1 hn)))
  refine .bind (wp_setBlock (fun hl => ?_) fun hn => hd (Or.inl ((hs.dead_iff hc).1 hn)))
  refine hk s₁ v hS hs.empty hv ⟨fun hdoom => ?_, fun hdoom => ?_⟩
  · rw [Live, (hs.dead_iff hc).2 hdoom] at hl
    cases hl
  · rw [(hs.dead_iff hother).2 hdoom] at hv
    cases hv

theorem wp_assign (h : s.Sound) (hc : s.Live c) (hother : s.Live other) :
    Wp (fun _ => True) (¬ s.Spares (.assign c other)) (assign c other)
      (fun _ s' => s.Spares (.assign c other) ∧ s'.Sound) s := by
  unfold assign
  refine .ite (fun hne => ?_) fun he => .pure ⟨Or.inl (not_not.1 he), h⟩
  refine wp_assignRest h hc hother (fun hd hs => ?_) fun s₁ v hS hempty hv hspare => ?_
  · rcases hs with hs | hs
    · exact hne hs
    · exact hd.elim hs.1 hs.2
  · exact wp_addRef hS hempty hv fun s' hs' => ⟨Or.inr hspare, hs'⟩

theorem wp_assignMove (h : s.Sound) (hc : s.Live c) (hother : s.Live other) :
    Wp (fun _ => True) (¬ s.Spares (.assignMove c other)) (assignMove c other)
      (fun _ s' => s.Spares (.assignMove c other) ∧ s'.Sound) s := by
  unfold assignMove
  refine .ite (fun hne => ?_) fun he => .pure ⟨Or.inl (not_not.1 he), h⟩
  have hne' : other ≠ c := fun e => hne e.symm
  refine wp_assignRest h hc hother (fun hd hs => ?_) fun s₁ v hS hempty hv hspare => ?_
  · rcases hs with hs | hs
    · exact hne hs
    · exact hd.elim hs.1 hs.2
  · refine wp_setBlock (fun _ => ⟨Or.inr hspare, hS.take hempty hne' hv⟩) fun hn => ?_
    rw [setCell_ne hne', hv] at hn
    cases hn

/-- A release, and a handle that is written to after it. -/
theorem wp_resetRest (h : s.Sound) (hc : s.Live c) {k : P Unit} {Q : Unit → State → Prop}
    (hd : s.Doomed c c → err)
    (hk : ∀ s₁ : State, Sheds s c s₁ → s₁.Sound → (s₁.Live c → ¬ s.Doomed c c) →
      (s₁.cells c = none → err) → Wp (fun _ => True) err k Q s₁) :
    Wp (fun _ => True) err (release c >>= fun _ => k) Q s := by
  refine .bind (wp_released h hc fun s₁ hs hS => ?_)
  refine hk s₁ hs hS (fun hl hdoom => ?_) fun hn => hd ((hs.dead_iff hc).1 hn)
  rw [Live, (hs.dead_iff hc).2 hdoom] at hl
  cases hl

theorem wp_reset (h : s.Sound) (hc : s.Live c) :
    Wp (fun _ => True) (¬ s.Spares (.reset c)) (reset c)
      (fun _ s' => s.Spares (.reset c) ∧ s'.Sound) s := by
  refine wp_resetRest h hc (fun hd hs => hs hd) fun s₁ hs hS hspare hdead => ?_
  exact wp_setBlock (fun hl => ⟨hspare hl, hS.settle hs.empty⟩) hdead

theorem wp_resetPtr (h : s.Sound) (hc : s.Live c) (hf : s.Fresh ptr) :
    Wp (fun _ => True) (¬ s.Spares (.resetPtr c ptr)) (Act.resetPtr c ptr).run
      (fun _ s' => s.Spares (.resetPtr c ptr) ∧ s'.Sound) s := by
  have hdoom := withObject_doomed (t := c) (x := c) hf
  have hc' : (s.withObject ptr).Live c := by
    rw [Live, withObject_cells hc hf]
    exact hc
  refine .bind (wp_newObject ?_)
  refine wp_resetRest (h.withObject hf) hc' (fun hd hs => hs (hdoom.1 hd))
    fun s₁ hs hS hspare hdead => ?_
  cases hptr : ptr with
  | none =>
    exact wp_setBlock (fun hl => ⟨fun hd => hspare hl (hdoom.2 hd), hS.settle hs.empty⟩) hdead
  | some ms =>
    have hobj : ∀ m ∈ ms, s₁.Live m ∧ ∀ b, m ∉ s₁.members b := by
      intro m hm
      obtain ⟨hl, hout⟩ := (h.object hf ms hptr).2 m hm
      have hout' : ∀ b, m ∉ (s.withObject ptr).members b := fun b => by
        rw [withObject_members]
        exact hout b
      refine ⟨?_, fun b hb => hout' b (hs.members hb)⟩
      rw [Live, Option.isSome_iff_ne_none]
      rintro hn
      obtain ⟨b, _, hb⟩ := (hs.dead_iff hl).1 hn
      exact hout' b hb
    show Wp _ _ (newBlock (some ms) >>= fun b => setBlock c (some b)) _ _
    unfold newBlock
    refine .bind (.bind (.get (.bind (.modify (.pure ?_)))))
    refine wp_setBlock (fun hl => ⟨fun hd => hspare hl (hdoom.2 hd), ?_⟩) hdead
    exact hS.adopt hs.empty fun ms' hms' => by
      cases Option.mem_def.1 hms'
      exact ⟨(hf ms hptr).1, hobj⟩

theorem wp_dtor (h : s.Sound) (hc : s.Live c) (hfree : s.Free c) :
    Wp (fun _ => True) err (dtor c) (fun _ s' => s'.Sound) s := by
  refine .bind (wp_released h hc fun s₁ hs hS => .modify ?_)
  refine hS.kill ?_ fun b hb => h.not_members_of_free hfree (hs.members hb)
  rcases hs.cells c with h1 | ⟨_, h1⟩ | ⟨_, b, _, hb⟩
  · obtain ⟨v, hv⟩ := Option.isSome_iff_exists.1 hc
    cases v with
    | none => exact h1.trans hv
    | some b => exact absurd (h1.trans hv) (hs.empty b)
  · exact h1
  · exact absurd hb (h.not_members_of_free hfree)

/-- **One step** returns exactly if it spares the handles it has named, and keeps the invariant. -/
theorem wp_step {a : Act} (h : s.Sound) (hv : s.Valid a) :
    Wp (fun _ => True) (¬ s.Spares a) a.run (fun _ s' => s.Spares a ∧ s'.Sound) s := by
  cases a with
  | ctor c => exact .modify ⟨trivial, h.settle (not_points hv)⟩
  | ctorPtr c ptr => exact (wp_ctorPtr h hv.1 hv.2.1).mono fun _ s' hs' => ⟨trivial, hs'⟩
  | ctorCopy c other => exact (wp_ctorCopy h hv.1 hv.2).mono fun _ s' hs' => ⟨trivial, hs'⟩
  | ctorMove c other => exact (wp_ctorMove h hv.1 hv.2).mono fun _ s' hs' => ⟨trivial, hs'⟩
  | assign c other => exact wp_assign h hv.1 hv.2
  | assignMove c other => exact wp_assignMove h hv.1 hv.2
  | reset c => exact wp_reset h hv
  | resetPtr c ptr => exact wp_resetPtr h hv.1 hv.2
  | dtor c => exact (wp_dtor h hv.1 hv.2).mono fun _ s' hs' => ⟨trivial, hs'⟩

end

/-! ## Runs -/

namespace State

/-- The state after an act, if it accesses nothing that has gone. -/
def step (s : State) (a : Act) : Option State :=
  match (a.run s).result with
  | .ok ((), s') => some s'
  | .error _ => none

def Step (s : State) (a : Act) (s' : State) : Prop := s.step a = some s'

/-- Counts are numbers of handles, no handle is left at a block that has been freed, and of the
objects handed over exactly those without a handle have been deleted, each of them once. -/
structure Owned (s : State) : Prop where
  count : ∀ b blk, s.blocks b = some blk → blk.refcount = s.handles b ∧ 0 < blk.refcount
  held : ∀ c b, s.Points c b → (s.blocks b).isSome = true
  once : ∀ b ∈ s.made, s.deleted.count b = if s.handles b = 0 then 1 else 0
  only : ∀ b ∈ s.deleted, b ∈ s.made

/-- Every state of the run is right, and no act accesses what has gone. -/
def Keeps : State → List Act → Prop
  | s, [] => s.Owned
  | s, a :: as => s.Owned ∧ ∃ s', Step s a s' ∧ Keeps s' as

variable {s s' : State} {a : Act} {as : List Act} {t x : Cell}

theorem Sound.owned (h : s.Sound) : s.Owned := by
  refine ⟨fun b blk hblk => ?_, h.held, fun b hb => ?_, fun b hb => ?_⟩
  · rw [h.count b blk hblk]
    exact ⟨rfl, h.used b (by rw [hblk]; rfl)⟩
  · simp only [h.once, hb, true_and]
  · by_contra hne
    have := List.count_pos_iff.2 hb
    rw [h.once, if_neg fun hb' => hne hb'.1] at this
    exact absurd this (lt_irrefl _)

theorem sound_init : State.init.Sound := by
  refine ⟨⟨fun c b hc => ?_, fun b blk hblk => ?_, fun b _ m hm => ?_, fun b => ?_,
    fun b b' m hm => ?_, fun b _ => rfl, fun b blk hblk => ?_, fun b hb => ?_, fun b => ?_⟩,
    fun b hb => ?_⟩
  · cases hc
  · cases hblk
  · cases hm
  · exact List.nodup_nil
  · cases hm
  · cases hblk
  · cases hb
  · rw [if_neg fun hb => by cases hb.1]
    rfl
  · cases hb

theorem Step.returns (h : s.Sound) (hv : s.Valid a) (hs : Step s a s') :
    s.Spares a ∧ s'.Sound := by
  unfold Step step at hs
  have hw := wp_step h hv
  cases hr : (a.run s).result with
  | error e =>
    rw [hr] at hs
    cases hs
  | ok r =>
    rw [hr] at hs
    cases hs
    exact hw.returns hr

theorem exists_step (h : s.Sound) (hv : s.Valid a) (hsp : s.Spares a) :
    ∃ s', Step s a s' ∧ s'.Sound := by
  have hw := wp_step h hv
  rw [eq_false (not_not.2 hsp)] at hw
  obtain ⟨_, s', hr, _, hs'⟩ := hw.total
  refine ⟨s', ?_, hs'⟩
  rw [Step, step, hr]

theorem keeps_iff_of_sound : ∀ {as : List Act} {s : State}, s.Sound → Along Step Valid s as →
    (Keeps s as ↔ Along Step Spares s as) := by
  intro as
  induction as with
  | nil => exact fun h _ => ⟨fun _ => trivial, fun _ => h.owned⟩
  | cons a as ih =>
    intro s h hv
    constructor
    · rintro ⟨_, s', hs, hk⟩
      obtain ⟨hsp, hS⟩ := hs.returns h hv.1
      refine ⟨hsp, fun s'' hs'' => ?_⟩
      cases Option.some.inj (hs.symm.trans hs'')
      exact (ih hS (hv.2 s' hs)).1 hk
    · intro hsp
      obtain ⟨s', hs, hS⟩ := exists_step h hv.1 hsp.1
      exact ⟨h.owned, s', hs, (ih hS (hv.2 s' hs)).2 (hsp.2 s' hs)⟩

/-- **Ownership.** The counts are right, objects go once and with their last handle, and nothing is
accessed that has gone, in exactly the programs whose assignments and resets spare the handles they
name. -/
theorem keeps_iff {as : List Act} (hv : Along Step Valid init as) :
    Keeps init as ↔ Along Step Spares init as :=
  keeps_iff_of_sound sound_init hv

/-! ## A list -/

/-- An object that has the handle is kept by a handle that is in no object, one of `ys`. -/
def Kept (s : State) (ys : List Cell) (t x : Cell) : Prop :=
  ∀ b < s.next, x ∈ s.members b → ∃ y ∈ ys, y ≠ t ∧ s.Points y b ∧ s.Free y

instance (s : State) (ys : List Cell) (t x : Cell) : Decidable (s.Kept ys t x) :=
  inferInstanceAs (Decidable (∀ b < _, _))

theorem Sound.not_doomed (h : s.Sound) {ys : List Cell} (hk : s.Kept ys t x) :
    ¬ s.Doomed t x := by
  rintro ⟨b, hb, hx⟩
  have hlt : b < s.next := by
    by_contra hge
    have := isSome_of_members hx
    rw [h.fresh b (by omega)] at this
    cases this
  obtain ⟨y, _, hne, hy, hfree⟩ := hk b hlt hx
  exact RefCount.not_dies_of_free hy hne (fun b => h.not_members_of_free hfree) hb

/-- Every handle that an assignment or a reset names is kept. -/
def Safe (ys : List Cell) (s : State) : Act → Prop
  | .assign c other => s.Kept ys c c ∧ s.Kept ys c other
  | .assignMove c other => s.Kept ys c c ∧ s.Kept ys c other
  | .reset c => s.Kept ys c c
  | .resetPtr c _ => s.Kept ys c c
  | _ => True

instance (ys : List Cell) (s : State) : (a : Act) → Decidable (s.Safe ys a)
  | .ctor _ => inferInstanceAs (Decidable True)
  | .ctorPtr _ _ => inferInstanceAs (Decidable True)
  | .ctorCopy _ _ => inferInstanceAs (Decidable True)
  | .ctorMove _ _ => inferInstanceAs (Decidable True)
  | .assign _ _ => inferInstanceAs (Decidable (_ ∧ _))
  | .assignMove _ _ => inferInstanceAs (Decidable (_ ∧ _))
  | .reset _ => inferInstanceAs (Decidable (State.Kept _ _ _ _))
  | .resetPtr _ _ => inferInstanceAs (Decidable (State.Kept _ _ _ _))
  | .dtor _ => inferInstanceAs (Decidable True)

theorem Sound.spares (h : s.Sound) {ys : List Cell} (hs : s.Safe ys a) : s.Spares a := by
  cases a with
  | assign c other => exact Or.inr ⟨h.not_doomed hs.1, h.not_doomed hs.2⟩
  | assignMove c other => exact Or.inr ⟨h.not_doomed hs.1, h.not_doomed hs.2⟩
  | reset c => exact h.not_doomed hs
  | resetPtr c ptr => exact h.not_doomed hs
  | ctor | ctorPtr | ctorCopy | ctorMove | dtor => trivial

theorem along_spares {ys : List Cell}
    (h : Along Step (fun s a => s.Valid a ∧ s.Safe ys a) init as) : Along Step Spares init as :=
  .of_invariant (fun _ _ _ hS hc hs => (hs.returns hS hc.1).2) (fun _ _ hS hc => hS.spares hc.2)
    sound_init h

theorem Keeps.foldlM : ∀ {as : List Act} {s : State}, Keeps s as →
    (as.foldlM State.step s).isSome = true := by
  intro as
  induction as with
  | nil => exact fun _ => rfl
  | cons a as ih =>
    rintro s ⟨_, s', hs, hk⟩
    rw [List.foldlM_cons, show s.step a = some s' from hs]
    exact ih hk

end State

/-- The handles of a list: its head, that of the node after the first one, and two more. -/
def head : Cell := (0 : Fin 1073741824)

def next : Cell := (1 : Fin 1073741824)

def tmp : Cell := (2 : Fin 1073741824)

def keep : Cell := (3 : Fin 1073741824)

/-- The first of two nodes goes: `head = head->next`. -/
def popFront : List Act :=
  [.ctorPtr head (some [next]), .ctorPtr tmp (some []), .assignMove next tmp, .assign head next]

/-- The same with a copy, that keeps the second node, and all handles end. -/
def popFrontKeeping : List Act :=
  [.ctorPtr head (some [next]), .ctorPtr tmp (some []), .assignMove next tmp, .ctorCopy keep next,
    .assignMove head keep, .dtor keep, .dtor tmp, .dtor head]

theorem valid_popFrontKeeping :
    Along State.Step (fun s a => s.Valid a ∧ s.Safe [head] a) .init popFrontKeeping :=
  (along_of_check (f := State.step) (p := fun s a => decide (s.Valid a ∧ s.Safe [head] a))
    (fun _ _ _ => Iff.rfl) (by decide +kernel)).mono fun _ _ h => of_decide_eq_true h

theorem keeps_popFrontKeeping : Along State.Step State.Valid .init popFrontKeeping ∧
    State.Keeps .init popFrontKeeping :=
  have hv := valid_popFrontKeeping.mono fun _ _ h => h.1
  ⟨hv, (State.keeps_iff hv).2 (State.along_spares valid_popFrontKeeping)⟩

/-- The old first node goes before its `next` is read. -/
theorem not_keeps_popFront : Along State.Step State.Valid .init popFront ∧
    ¬ State.Keeps .init popFront := by
  refine ⟨(along_of_check (f := State.step) (p := fun s a => decide (s.Valid a))
    (fun _ _ _ => Iff.rfl) (by decide +kernel)).mono fun _ _ h => of_decide_eq_true h, fun hk => ?_⟩
  exact absurd hk.foldlM (by decide +kernel)

end SharedPtr

end Ospp
