import Ospp.Klib.BitmapRange
import Ospp.Klib.SpinLock
import Ospp.Mm.PmmAccount

/-!
# Frames of concurrent threads

`alloc_frames` and `free_frames` change the bitmap and then `used_frames`, behind `pmm::lock`. Here
any number of threads call them at any time, and each gives back only what it was given. How the two
functions are cut into small steps is left open (`Implements`); `frameObject` cuts them between the
bitmap and the counter.

The account is kept over the list of calls that have released the lock, in that order. What a thread
holds is read off its own calls in that list alone (`held`), so the condition on a release does not
speak of the other threads.
-/

namespace Ospp

open Trans Guarded SpinLock

namespace Pmm

variable {ρ θ : Type}

/-- Small steps with a register make up the two functions; `res` reads the address off the
register. -/
structure Implements (O : Object Pmm ρ FrameAct) (res : ρ → ℕ) : Prop where
  alloc : ∀ p count, (O.run (.alloc count) p).map (fun x => (x.1, res x.2)) =
    (p.allocFrames count.toNat).toOption
  free : ∀ p base count, (O.run (.free base count) p).map Prod.fst =
    (p.freeFrames base.toNat count.toNat).toOption

/-! ## What a thread holds -/

section

variable (res : ρ → ℕ)

/-- The frames that a call adds or takes away. -/
def settle (own : Finset ℕ) : FrameAct × ρ → Finset ℕ
  | (.alloc count, r) => own ∪ span (res r / 4096) count.toNat
  | (.free base count, _) => own \ span (base.toNat / 4096) count.toNat

/-- The frames that are given out after these calls. -/
def given (done : List (θ × FrameAct × ρ)) : Finset ℕ :=
  done.foldl (fun own x => settle res own x.2) ∅

/-- The frames that a thread holds after these calls. -/
def held [DecidableEq θ] (t : θ) (done : List (θ × FrameAct × ρ)) : Finset ℕ :=
  done.foldl (fun own x => if x.1 = t then settle res own x.2 else own) ∅

theorem given_concat (done : List (θ × FrameAct × ρ)) (t : θ) (o : FrameAct) (r : ρ) :
    given res (done ++ [(t, o, r)]) = settle res (given res done) (o, r) := by
  unfold given
  rw [List.foldl_append]
  rfl

variable [DecidableEq θ]

theorem held_concat_self (done : List (θ × FrameAct × ρ)) (t : θ) (o : FrameAct) (r : ρ) :
    held res t (done ++ [(t, o, r)]) = settle res (held res t done) (o, r) := by
  unfold held
  rw [List.foldl_append, List.foldl_cons, List.foldl_nil, if_pos rfl]

theorem held_concat_ne (done : List (θ × FrameAct × ρ)) {t u : θ} (o : FrameAct) (r : ρ)
    (h : u ≠ t) : held res u (done ++ [(t, o, r)]) = held res u done := by
  unfold held
  rw [List.foldl_append, List.foldl_cons, List.foldl_nil, if_neg fun e => h e.symm]

/-! ## The account over the calls -/

/-- A thread may give back frames that it holds. -/
def May (t : θ) (done : List (θ × FrameAct × ρ)) : FrameAct → Prop
  | .alloc _ => True
  | .free base count => span (base.toNat / 4096) count.toNat ⊆ held res t done

/-- The records agree with what is given out, and that is shared out among the threads. -/
structure Booked (p : Pmm) (done : List (θ × FrameAct × ρ)) : Prop where
  account : Account p (given res done)
  within : ∀ t, held res t done ⊆ given res done
  apart : ∀ t u, t ≠ u → Disjoint (held res t done) (held res u done)

theorem booked_nil {p : Pmm} (h : Account p ∅) : Booked (θ := θ) res p [] :=
  ⟨h, fun _ => Finset.Subset.refl ∅, fun _ _ _ => Finset.disjoint_empty_left ∅⟩

variable {res}

/-- The threads keep apart, and within what is given out, when one of them settles. -/
theorem Booked.concat {p p' : Pmm} {done : List (θ × FrameAct × ρ)} {t : θ} {o : FrameAct} {r : ρ}
    (h : Booked res p done) (haccount : Account p' (settle res (given res done) (o, r)))
    (hself : settle res (held res t done) (o, r) ⊆ settle res (given res done) (o, r))
    (hothers : ∀ u, u ≠ t → held res u done ⊆ settle res (given res done) (o, r) ∧
      Disjoint (settle res (held res t done) (o, r)) (held res u done)) :
    Booked res p' (done ++ [(t, o, r)]) := by
  refine ⟨by rw [given_concat]; exact haccount, fun u => ?_, fun u v huv => ?_⟩
  · rw [given_concat]
    by_cases hu : u = t
    · rw [hu, held_concat_self]
      exact hself
    · rw [held_concat_ne res done o r hu]
      exact (hothers u hu).1
  · by_cases hu : u = t
    · have hv : v ≠ t := fun e => huv (hu.trans e.symm)
      rw [hu, held_concat_self, held_concat_ne res done o r hv]
      exact (hothers v hv).2
    · rw [held_concat_ne res done o r hu]
      by_cases hv : v = t
      · rw [hv, held_concat_self]
        exact (hothers u hu).2.symm
      · rw [held_concat_ne res done o r hv]
        exact h.apart u v huv

variable {O : Object Pmm ρ FrameAct}

/-- **One call more.** -/
theorem Booked.call (hO : Implements O res) {p p' : Pmm} {done : List (θ × FrameAct × ρ)} {t : θ}
    {o : FrameAct} {r : ρ} (h : Booked res p done) (hmay : May res t done o)
    (hrun : O.run o p = some (p', r)) : Booked res p' (done ++ [(t, o, r)]) := by
  cases o with
  | alloc count =>
    have hok : p.allocFrames count.toNat = .ok (p', res r) := by
      have himpl := hO.alloc p count
      rw [hrun, Option.map_some] at himpl
      cases hp : p.allocFrames count.toNat with
      | error _ => rw [hp] at himpl; cases himpl
      | ok x => rw [hp] at himpl; cases himpl; rfl
    -- the frames were free, so nobody holds them
    have hnew : Disjoint (given res done) (span (res r / 4096) count.toNat) := by
      obtain ⟨i, _, haddr, hfree, _⟩ := allocFrames_eq_ok hok
      rw [show res r / 4096 = i by omega, Finset.disjoint_left]
      intro k hk hk'
      rw [mem_span] at hk'
      have h0 := hfree (k - i) (by omega)
      rw [show i + (k - i) = k by omega, (h.account.out_used k hk).2.2] at h0
      cases h0
    refine h.concat (h.account.alloc hok) (Finset.union_subset_union_left (h.within t))
      fun u hu => ⟨(h.within u).trans Finset.subset_union_left, ?_⟩
    exact Finset.disjoint_union_left.2
      ⟨h.apart t u (Ne.symm hu), (hnew.mono_left (h.within u)).symm⟩
  | free base count =>
    have hok : p.freeFrames base.toNat count.toNat = .ok p' := by
      have himpl := hO.free p base count
      rw [hrun, Option.map_some] at himpl
      cases hp : p.freeFrames base.toNat count.toNat with
      | error _ => rw [hp] at himpl; cases himpl
      | ok x => rw [hp] at himpl; cases himpl; rfl
    have hsub : span (base.toNat / 4096) count.toNat ⊆ given res done := hmay.trans (h.within t)
    refine h.concat (h.account.free base.toNat_lt hsub hok).1
      (Finset.sdiff_subset_sdiff (h.within t) (Finset.Subset.refl _)) fun u hu => ⟨?_, ?_⟩
    · intro k hk
      refine Finset.mem_sdiff.2 ⟨h.within u hk, fun hin => ?_⟩
      exact Finset.disjoint_left.1 (h.apart u t hu) hk (hmay hin)
    · exact (h.apart t u (Ne.symm hu)).mono_left Finset.sdiff_subset

/-- A call of what a thread may do does not panic, apart from an allocation. -/
theorem Booked.exists_free (hO : Implements O res) {p : Pmm} {done : List (θ × FrameAct × ρ)}
    {t : θ} {base count : UInt32} (h : Booked res p done) (hal : base.toNat % 4096 = 0)
    (hmay : May res t done (.free base count)) : ∃ x, O.run (.free base count) p = some x := by
  have hmem : ∀ j < count.toNat, base.toNat / 4096 + j ∈ given res done := fun j hj =>
    h.within t (hmay (mem_span.2 ⟨by omega, by omega⟩))
  have hfit : base.toNat / 4096 + count.toNat ≤ 1048576 := by
    have hlt := base.toNat_lt
    by_cases h0 : count.toNat = 0
    · omega
    · have := (h.account.out_used _ (hmem (count.toNat - 1) (by omega))).2.1
      omega
  have hunit : (base.toNat - pmmSpec.baseAddr) / pmmSpec.unitSize = base.toNat / 4096 := rfl
  have hbits : ∃ b, p.memMngr.freeUnits pmmSpec base.toNat count.toNat = .ok b :=
    Bitmap.exists_freeUnits (by decide) (Nat.zero_le _) hal hfit
      fun j hj => (h.account.out_used _ (hmem j hj)).2.2
  obtain ⟨b, hb⟩ := hbits
  have hfree : p.freeFrames base.toNat count.toNat =
      .ok { p with memMngr := b, usedFrames := Word32.sub p.usedFrames count.toNat } := by
    unfold freeFrames
    rw [hb]
    rfl
  have himpl := hO.free p base count
  rw [hfree] at himpl
  obtain ⟨x, hx, _⟩ := Option.map_eq_some_iff.1 himpl
  exact ⟨x, hx⟩

end

/-! ## Runs -/

variable [DecidableEq θ] {O : Object Pmm ρ FrameAct} {res : ρ → ℕ}

/-- A thread that starts a call may do so. -/
def Careful (res : ρ → ℕ) (s : SpinLock.State Pmm ρ FrameAct θ) (a : SpinLock.Act FrameAct θ) :
    Prop :=
  ∀ t o, a.call = some (t, o) → May res t s.done o

/-- Whatever the calls that are done come to, the books are right; and each call in progress is one
that its thread may do. -/
structure Kept (O : Object Pmm ρ FrameAct) (res : ρ → ℕ) (p₀ : Pmm)
    (s : SpinLock.State Pmm ρ FrameAct θ) : Prop where
  booked : ∀ p, Replays O p₀ s.done p → Booked res p s.done
  may : ∀ t o, (s.pc t).op = some o → May res t s.done o

theorem Kept.step (hO : Implements O res) {p₀ : Pmm} {s s' : SpinLock.State Pmm ρ FrameAct θ}
    {a : SpinLock.Act FrameAct θ} (h : Kept O res p₀ s) (hc : Careful res s a)
    (hs : SpinLock.Step O s a s') : Kept O res p₀ s' := by
  rcases step_ops hs with ⟨hdone, hops⟩ | ⟨t, o, r, ht, hdone, hops⟩
  · refine ⟨fun p hp => ?_, fun t o ho => ?_⟩
    · rw [hdone] at hp ⊢
      exact h.booked p hp
    · rw [hdone]
      rcases hops t o ho with ho | hcall
      · exact h.may t o ho
      · exact hc t o hcall
  · refine ⟨fun p hp => ?_, fun u o' ho => ?_⟩
    · rw [hdone] at hp ⊢
      obtain ⟨p₁, hp₁, p₂, hrun, rfl⟩ := (replays_append O).1 hp
      exact (h.booked p₁ hp₁).call hO (h.may t o ht) hrun
    · obtain ⟨hu, ho⟩ := hops u o' ho
      have hmay := h.may u o' ho
      rw [hdone]
      cases o' with
      | alloc _ => trivial
      | free base count =>
        unfold May at hmay ⊢
        rw [held_concat_ne res s.done o r hu]
        exact hmay

/-- **The allocator among threads.** No frame is held by two threads. While the lock is free the
records agree, and the frames that a thread holds are in use and beyond the first megabyte. A thread
that is giving frames back will not panic, however far it is. -/
structure Shared (res : ρ → ℕ) (s : SpinLock.State Pmm ρ FrameAct θ) : Prop where
  apart : ∀ t u, t ≠ u → Disjoint (held res t s.done) (held res u s.done)
  accounted : s.locked = false → Accounted s.data
  used : s.locked = false → ∀ t, ∀ k ∈ held res t s.done,
    256 ≤ k ∧ k < 1048576 ∧ s.data.used k = true
  freeing : ∀ t base count left r, s.pc t = .inside (.free base count) left r →
    base.toNat % 4096 = 0 → ∃ x, finish left (s.data, r) = some x

theorem Kept.shared (hO : Implements O res) {p₀ : Pmm} {s : SpinLock.State Pmm ρ FrameAct θ}
    (h : Kept O res p₀ s) (hat : Atomic O p₀ s) : Shared res s := by
  obtain ⟨p, hp, hdata, hfin⟩ := hat.serial
  have hB := h.booked p hp
  refine ⟨hB.apart, fun hl => ?_, fun hl t k hk => ?_, fun t base count left r hpc hal => ?_⟩
  · rw [hdata hl]
    exact hB.account.accounted
  · rw [hdata hl]
    exact hB.account.out_used k (hB.within t hk)
  · rw [hfin t _ left r hpc]
    exact hB.exists_free hO hal (h.may t _ (by rw [hpc]; rfl))

/-- **Frames of concurrent threads.** From `init` on, any threads call `alloc_frames` and
`free_frames` in any interleaving of their steps, each giving back only frames it was given. -/
theorem concurrent_frames (img : KernelImage) (p₀ : Pmm) (mb : Multiboot)
    (hmap : mb.hasMemMap = true)
    (hbelow : ∀ e ∈ mb.mmap, e.isAvailable = true → e.addr.toNat + e.len.toNat ≤ 4294967296)
    (hdisj : mb.mmap.Pairwise fun e e' => e.isAvailable = true → e'.isAvailable = true →
      ∀ x, ¬ (e.Contains x ∧ e'.Contains x)) (hO : Implements O res) :
    ∃ p, init img p₀ mb = .ok p ∧ ∀ (as : List (SpinLock.Act FrameAct θ)) s,
      Run (SpinLock.Step O) (.start p) as s →
      Along (SpinLock.Step O) (Careful res) (.start p) as → Shared res s := by
  obtain ⟨_, _, _, p, hok, _⟩ := exists_init_steps img p₀ mb hmap
  have hA := account_init hbelow hdisj hok
  refine ⟨p, hok, fun as s hrun hcare => ?_⟩
  have hstart : Kept O res p (SpinLock.State.start p : SpinLock.State Pmm ρ FrameAct θ) :=
    ⟨fun p' hp' => by cases hp'; exact booked_nil res hA, fun t o ho => by cases ho⟩
  have hK : Kept O res p s := hrun.invariant (I := Kept O res p) (C := Careful res)
    (fun s a s' h hc hs => h.step hO hc hs) hcare hstart
  obtain ⟨bs, g, hg, hR⟩ := exists_guarded_run hrun
  exact hK.shared hO (hR.atomic (serial_run hg))

/-! ## The two functions in two steps each -/

/-- The bitmap first, then the counter. The register is the address. -/
def frameObject : Object Pmm ℕ FrameAct where
  entry _ := 0
  body
    | .alloc count => [
        fun p _ => (p.memMngr.allocUnits pmmSpec count.toNat).toOption.map fun x =>
          ({ p with memMngr := x.1 }, x.2),
        fun p r => some ({ p with usedFrames := Word32.add p.usedFrames count.toNat }, r)]
    | .free base count => [
        fun p r => (p.memMngr.freeUnits pmmSpec base.toNat count.toNat).toOption.map fun b =>
          ({ p with memMngr := b }, r),
        fun p r => some ({ p with usedFrames := Word32.sub p.usedFrames count.toNat }, r)]

theorem implements_frameObject : Implements frameObject id := by
  refine ⟨fun p count => ?_, fun p base count => ?_⟩
  · unfold allocFrames Object.run finish
    show Option.map _ (List.foldlM _ _ [_, _]) = _
    rw [List.foldlM_cons]
    dsimp only
    cases p.memMngr.allocUnits pmmSpec count.toNat with
    | error _ => rfl
    | ok x => rfl
  · unfold freeFrames Object.run finish
    show Option.map _ (List.foldlM _ _ [_, _]) = _
    rw [List.foldlM_cons]
    dsimp only
    cases p.memMngr.freeUnits pmmSpec base.toNat count.toNat with
    | error _ => rfl
    | ok x => rfl

/-- The machine `Multiboot.small`. -/
theorem concurrent_frames_small : ∃ p, init .sample ⟨.empty, 0, 0⟩ .small = .ok p ∧
    ∀ (as : List (SpinLock.Act FrameAct ℕ)) s, Run (SpinLock.Step frameObject) (.start p) as s →
      Along (SpinLock.Step frameObject) (Careful id) (.start p) as → Shared id s := by
  refine concurrent_frames .sample ⟨.empty, 0, 0⟩ .small rfl (by decide) ?_ implements_frameObject
  refine List.pairwise_pair.2 fun _ _ x hx => ?_
  have h1 : x < 0x9FC00 := hx.1.2
  have h2 : 0x100000 ≤ x := hx.2.1
  omega

end Pmm

end Ospp
