import Ospp.Klib.BitmapCount
import Ospp.Mm.PmmInit

/-!
# The account of physical memory

Three records have to agree: `available_frames`, which `init` adds up over the memory map,
`used_frames`, which every reservation and allocation changes, and the bitmap. The invariant is that
the frames in use and the free bits make up the available frames, and that the frames given out by
`alloc_frames` are among those counted as in use. Reserving a region counts only the frames that
were free before, so regions may overlap.
-/

namespace Ospp

open Trans

/-- The entry contains the address. -/
def MemoryMapEntry.Contains (e : MemoryMapEntry) (x : ℕ) : Prop :=
  e.addr.toNat ≤ x ∧ x < e.addr.toNat + e.len.toNat

namespace Pmm

/-- `pmm::free_memory`. -/
def freeMemory (p : Pmm) : ℕ := Word32.mul (Word32.sub p.availableFrames p.usedFrames) pageSize

/-- `pmm::used_memory`. -/
def usedMemory (p : Pmm) : ℕ := Word32.mul p.usedFrames pageSize

/-- `pmm::total_memory`. -/
def totalMemory (p : Pmm) : ℕ := Word32.mul p.availableFrames pageSize

/-- The free frames of the bitmap. -/
def freeSet (p : Pmm) : Finset ℕ := Bitmap.freeUnitsOf pmmSpec p.memMngr

/-- The frames of a range. -/
def span (f n : ℕ) : Finset ℕ := Finset.Ico f (f + n)

theorem mem_freeSet {p : Pmm} {k : ℕ} : k ∈ p.freeSet ↔ k < 1048576 ∧ p.used k = false := by
  unfold freeSet Bitmap.freeUnitsOf
  rw [Finset.mem_filter, Finset.mem_range]
  rfl

theorem mem_span {f n k : ℕ} : k ∈ span f n ↔ f ≤ k ∧ k < f + n := Finset.mem_Ico

theorem card_span (f n : ℕ) : (span f n).card = n := by
  unfold span
  rw [Nat.card_Ico, Nat.add_sub_cancel_left]

/-! ## Counting -/

/-- The frames of a range that pass a test, counted through the list of their numbers. -/
theorem countP_span (q : ℕ → Bool) (f n : ℕ) :
    ((List.range n).countP fun i => q (f + i)) = ((span f n).filter fun k => q k = true).card := by
  induction n with
  | zero => simp [span]
  | succ n ih =>
    have hspan : span f (n + 1) = insert (f + n) (span f n) := by
      ext k
      rw [Finset.mem_insert, mem_span, mem_span]
      omega
    have hnot : f + n ∉ span f n := fun h => by
      have := (mem_span.1 h).2
      omega
    rw [List.range_succ, List.countP_append, ih, hspan, Finset.filter_insert]
    split_ifs with hq
    · rw [Finset.card_insert_of_notMem fun h => hnot (Finset.mem_filter.1 h).1]
      simp [hq]
    · simp [hq]

/-- A range is the frames of it that are free and those that are in use. -/
theorem card_free_add_used (p : Pmm) {f n : ℕ} (hle : f + n ≤ 1048576) :
    (p.freeSet ∩ span f n).card + ((span f n).filter fun k => p.used k = true).card = n := by
  have hinter : p.freeSet ∩ span f n = (span f n).filter fun k => ¬ p.used k = true := by
    ext k
    rw [Finset.mem_inter, Finset.mem_filter, mem_freeSet, mem_span, Bool.not_eq_true]
    constructor
    · rintro ⟨⟨_, h1⟩, h2⟩
      exact ⟨h2, h1⟩
    · rintro ⟨h1, h2⟩
      exact ⟨⟨by omega, h2⟩, h1⟩
  rw [hinter, add_comm, Finset.card_filter_add_card_filter_not, card_span]

/-! ## The invariant -/

/-- The records agree, with the frames `out` given out by `alloc_frames`. -/
structure Account (p : Pmm) (out : Finset ℕ) : Prop where
  sum : p.usedFrames + p.freeSet.card = p.availableFrames
  /-- The first megabyte is never available. -/
  le : p.availableFrames ≤ 1048320
  low : ∀ k < 256, p.used k = true
  out_used : ∀ k ∈ out, 256 ≤ k ∧ k < 1048576 ∧ p.used k = true
  out_le : out.card ≤ p.usedFrames

/-- The frames from 1 MiB on. -/
theorem card_freeSet_le {p : Pmm} (hlow : ∀ k < 256, p.used k = true) :
    p.freeSet.card ≤ 1048320 := by
  have hsub : p.freeSet ⊆ Finset.Ico 256 1048576 := by
    intro k hk
    rw [mem_freeSet] at hk
    rw [Finset.mem_Ico]
    refine ⟨?_, hk.1⟩
    by_contra hlt
    rw [hlow k (by omega)] at hk
    cases hk.2
  have := Finset.card_le_card hsub
  rwa [Nat.card_Ico] at this

/-- Reserving a region counts the frames that were free. -/
theorem Account.deinitRegion {p p' : Pmm} {out : Finset ℕ} (h : Account p out) {base size : ℕ}
    (hb : base < 4294967296) (hok : p.deinitRegion base size = .ok p') : Account p' out := by
  obtain ⟨hal, hle⟩ := covered_le size hb
  obtain ⟨p'', hok'', hread⟩ := exists_deinitRegion p base size hb
  rw [hok] at hok''
  cases hok''
  have hset : p'.freeSet = p.freeSet \ span ((coveredPageRange base size).base / 4096)
      (coveredPageRange base size).frames := by
    ext k
    rw [Finset.mem_sdiff, mem_freeSet, mem_freeSet, mem_span, hread, and_assoc]
    rfl
  have hused : p'.availableFrames = p.availableFrames ∧ p'.usedFrames = p.usedFrames +
      (p.freeSet ∩ span ((coveredPageRange base size).base / 4096)
        (coveredPageRange base size).frames).card := by
    unfold Pmm.deinitRegion at hok
    generalize coveredPageRange base size = r at *
    dsimp only at hok
    split_ifs at hok with hempty
    · cases hok
      have h0 : r.frames = 0 := by simpa [PageRange.isEmpty] using hempty
      rw [h0]
      simp [span]
    · rw [K.bind_eq_ok] at hok
      obtain ⟨b, _, hok⟩ := hok
      cases hok
      have hcount : ((List.range r.frames).countP fun i => p.memMngr.allocated pmmSpec
          (Word32.add r.base (Word32.mul i pageSize))) =
          ((span (r.base / 4096) r.frames).filter fun k => p.used k = true).card := by
        rw [← countP_span]
        refine List.countP_congr fun i hi => ?_
        have hi' := List.mem_range.1 hi
        have haddr : Word32.add r.base (Word32.mul i pageSize) = r.base + i * 4096 := by
          unfold pageSize
          rw [Word32.mul_eq (by omega), Word32.add_eq (by omega)]
        rw [haddr]
        unfold Bitmap.allocated Bitmap.contains pmmSpec maxFrames pageSize
        dsimp only
        rw [if_neg (Nat.not_lt_zero _), decide_eq_true (by omega), if_neg (by decide),
          if_neg (by omega), Nat.sub_zero, show (r.base + i * 4096) / 4096 = r.base / 4096 + i by
          omega]
        rfl
      have hsplit := card_free_add_used p hle
      have hfree := card_freeSet_le h.low
      have hsub : (p.freeSet ∩ span (r.base / 4096) r.frames).card ≤ p.freeSet.card :=
        Finset.card_le_card Finset.inter_subset_left
      have hsum := h.sum
      have hmax := h.le
      refine ⟨rfl, ?_⟩
      dsimp only
      rw [hcount, Word32.sub_eq (by omega) (by omega), Word32.add_eq (by omega)]
      omega
  have hcard := Finset.card_sdiff_add_card_inter p.freeSet
    (span ((coveredPageRange base size).base / 4096) (coveredPageRange base size).frames)
  rw [← hset] at hcard
  have hsum := h.sum
  have hmono : ∀ k, p.used k = true → p'.used k = true := by
    intro k hk
    by_contra hno
    rw [((hread k).1 (Bool.not_eq_true _ ▸ hno)).1] at hk
    cases hk
  refine ⟨by omega, by rw [hused.1]; exact h.le, fun k hk => hmono k (h.low k hk),
    fun k hk => ⟨(h.out_used k hk).1, (h.out_used k hk).2.1, hmono k (h.out_used k hk).2.2⟩, ?_⟩
  have := h.out_le
  omega

/-! ## Initialisation -/

theorem initRegion_counters {p p' : Pmm} {base size : ℕ} (hok : p.initRegion base size = .ok p') :
    p'.availableFrames = p.availableFrames ∧ p'.usedFrames = p.usedFrames := by
  unfold initRegion at hok
  dsimp only at hok
  split_ifs at hok
  · cases hok
    exact ⟨rfl, rfl⟩
  · rw [K.bind_eq_ok] at hok
    obtain ⟨b, _, hok⟩ := hok
    cases hok
    exact ⟨rfl, rfl⟩

/-- An entry whose frames are in use adds them to both records. -/
theorem Account.addEntry {p p' : Pmm} (h : Account p ∅) (h0 : p.usedFrames = 0)
    {e : MemoryMapEntry} (hnew : e.isAvailable = true → ∀ k, e.HoldsCut k → p.used k = true)
    (hok : p.addEntry e = .ok p') : Account p' ∅ ∧ p'.usedFrames = 0 := by
  obtain ⟨p'', hok'', hread⟩ := exists_addEntry p e
  rw [hok] at hok''
  cases hok''
  have hlow : ∀ k < 256, p'.used k = true := by
    intro k hk
    by_contra hno
    rcases (hread k).1 (Bool.not_eq_true _ ▸ hno) with h1 | ⟨_, _, h1, _⟩
    · rw [h.low k hk] at h1
      cases h1
    · omega
  have hle := card_freeSet_le hlow
  have hcount : p'.usedFrames = 0 ∧ p'.freeSet.card = p'.availableFrames := by
    have hsum := h.sum
    unfold Pmm.addEntry at hok
    dsimp only at hok
    cases he : e.isAvailable with
    | false =>
      rw [he] at hok
      cases hok
      omega
    | true =>
      rw [he, if_pos rfl] at hok
      have hcov : ∀ k, (freeablePageRange (e.addr.toNat % 4294967296) (e.len.toNat % 4294967296)
          lowUsableBase).Covers k ↔ e.HoldsCut k ∧ 1048576 ≤ 4096 * k ∧ k < 1048576 := by
        intro k
        rw [covers_freeable]
        unfold MemoryMapEntry.HoldsCut lowUsableBase
        omega
      generalize freeablePageRange (e.addr.toNat % 4294967296) (e.len.toNat % 4294967296)
        lowUsableBase = r at hok hcov
      have hunion : p'.freeSet = p.freeSet ∪ span (r.base / 4096) r.frames := by
        ext k
        rw [Finset.mem_union, mem_freeSet, mem_freeSet, mem_span, hread, he]
        have hk := hcov k
        unfold PageRange.Covers pageSize at hk
        constructor
        · rintro ⟨h1, h2 | h2⟩
          · exact Or.inl ⟨h1, h2⟩
          · exact Or.inr (hk.2 h2.2)
        · rintro (h1 | h1)
          · exact ⟨h1.1, Or.inl h1.2⟩
          · have := hk.1 h1
            exact ⟨this.2.2, Or.inr ⟨rfl, this⟩⟩
      have hdisj : Disjoint p.freeSet (span (r.base / 4096) r.frames) := by
        rw [Finset.disjoint_left]
        intro k h1 h2
        have hk := (hcov k).1 (mem_span.1 h2)
        rw [mem_freeSet, hnew he k hk.1] at h1
        cases h1.2
      have hcard : p'.freeSet.card = p.freeSet.card + r.frames := by
        rw [hunion, Finset.card_union_of_disjoint hdisj, card_span]
      split_ifs at hok with hempty
      · cases hok
        omega
      · obtain ⟨h1, h2⟩ := initRegion_counters hok
        dsimp only at h1 h2
        rw [h1, h2, hcard, h0, Word32.add_eq (by omega)]
        omega
  exact ⟨⟨by omega, by omega, hlow, fun k hk => absurd hk (Finset.notMem_empty k), Nat.zero_le _⟩,
    hcount.1⟩

/-- The memory map, entry by entry. -/
theorem Account.addEntries : ∀ {es : List MemoryMapEntry} {p p' : Pmm}, Account p ∅ →
    p.usedFrames = 0 → (∀ e ∈ es, e.isAvailable = true → ∀ k, e.HoldsCut k → p.used k = true) →
    es.Pairwise (fun e e' => e.isAvailable = true → e'.isAvailable = true →
      ∀ k, e.HoldsCut k → ¬ e'.HoldsCut k) →
    es.foldlM Pmm.addEntry p = .ok p' → Account p' ∅ := by
  intro es
  induction es with
  | nil => intro p p' h _ _ _ hok; cases hok; exact h
  | cons e es ih =>
    intro p p' h h0 hnew hdisj hok
    rw [List.foldlM_cons, K.bind_eq_ok] at hok
    obtain ⟨p₁, h₁, hok⟩ := hok
    obtain ⟨p'', hok'', hread⟩ := exists_addEntry p e
    rw [h₁] at hok''
    cases hok''
    obtain ⟨hA, h0'⟩ := h.addEntry h0 (hnew e List.mem_cons_self) h₁
    obtain ⟨hhead, htail⟩ := List.pairwise_cons.1 hdisj
    refine ih hA h0' (fun e' he' hav k hk => ?_) htail hok
    by_contra hno
    rcases (hread k).1 (Bool.not_eq_true _ ▸ hno) with h1 | ⟨hav', hk', _⟩
    · rw [hnew e' (List.mem_cons_of_mem _ he') hav k hk] at h1
      cases h1
    · exact hhead e' he' hav' hav k hk' hk

theorem Account.reserveModules : ∀ {ms : List BootModule} {p p' : Pmm}, Account p ∅ →
    ms.foldlM (fun p m => p.reserveImage m.modStart.toNat m.modEnd.toNat) p = .ok p' →
    Account p' ∅ := by
  intro ms
  induction ms with
  | nil => intro p p' h hok; cases hok; exact h
  | cons m ms ih =>
    intro p p' h hok
    rw [List.foldlM_cons, K.bind_eq_ok] at hok
    obtain ⟨p₁, h₁, hok⟩ := hok
    exact ih (h.deinitRegion m.modStart.toNat_lt h₁) hok

/-- Entries below 4 GiB that share no address share no frame as `init` reads them. -/
theorem MemoryMapEntry.cut_apart {e e' : MemoryMapEntry}
    (hb : e.addr.toNat + e.len.toNat ≤ 4294967296) (hb' : e'.addr.toNat + e'.len.toNat ≤ 4294967296)
    (hdisj : ∀ x, ¬ (e.Contains x ∧ e'.Contains x)) {k : ℕ} (hk : e.HoldsCut k) :
    ¬ e'.HoldsCut k := by
  have hcontains : ∀ d : MemoryMapEntry, d.addr.toNat + d.len.toNat ≤ 4294967296 →
      d.HoldsCut k → d.Contains (4096 * k) := by
    intro d hd hcut
    unfold MemoryMapEntry.HoldsCut at hcut
    unfold MemoryMapEntry.Contains
    omega
  exact fun hk' => hdisj _ ⟨hcontains e hb hk, hcontains e' hb' hk'⟩

theorem account_init {img : KernelImage} {p₀ p : Pmm} {mb : Multiboot}
    (hbelow : ∀ e ∈ mb.mmap, e.isAvailable = true → e.addr.toNat + e.len.toNat ≤ 4294967296)
    (hdisj : mb.mmap.Pairwise fun e e' => e.isAvailable = true → e'.isAvailable = true →
      ∀ x, ¬ (e.Contains x ∧ e'.Contains x))
    (hok : init img p₀ mb = .ok p) : Account p ∅ := by
  obtain ⟨_, _, hlow3, _, _⟩ := lowBootReservedEnd_spec img mb
  obtain ⟨b, hb, hall⟩ := exists_mark true p₀.memMngr 0 maxFrames rfl
    (by unfold maxFrames; omega)
  rw [if_pos rfl] at hb
  unfold init at hok
  split_ifs at hok with hmap
  simp only [K.bind_eq_ok] at hok
  obtain ⟨b', hb', p₁, h₁, p₂, h₂, p₃, h₃, hok⟩ := hok
  rw [hb] at hb'
  cases hb'
  have hused : ∀ k < 1048576, Pmm.used ⟨b, 0, 0⟩ k = true := by
    intro k hk
    show b.testBit k = true
    rw [hall, if_pos ⟨Nat.zero_le _, by unfold maxFrames; omega⟩]
  have hempty : Pmm.freeSet ⟨b, 0, 0⟩ = ∅ := by
    rw [Finset.eq_empty_iff_forall_notMem]
    intro k hk
    rw [mem_freeSet] at hk
    rw [hused k hk.1] at hk
    cases hk.2
  have hA₀ : Account ⟨b, 0, 0⟩ ∅ := by
    refine ⟨?_, Nat.zero_le _, fun k hk => hused k (by omega),
      fun k hk => absurd hk (Finset.notMem_empty k), Nat.le_refl _⟩
    rw [hempty]
    rfl
  have hA₁ : Account p₁ ∅ := by
    refine hA₀.addEntries rfl (fun e he hav k hk => hused k ?_) ?_ h₁
    · have := hbelow e he hav
      unfold MemoryMapEntry.HoldsCut at hk
      omega
    · refine hdisj.imp_of_mem fun {e e'} he he' h hav hav' k hk => ?_
      exact MemoryMapEntry.cut_apart (hbelow e he hav) (hbelow e' he' hav') (h hav hav') hk
  have hA₂ : Account p₂ ∅ := hA₁.deinitRegion (by decide) h₂
  have hA₃ : Account p₃ ∅ := hA₂.reserveModules h₃
  rw [if_pos (by unfold lowUsableBase; omega)] at hok
  exact hA₃.deinitRegion (by decide) hok

/-! ## Allocation and release -/

/-- The frames given out and not taken back. -/
structure Ledger where
  pmm : Pmm
  out : Finset ℕ

inductive FrameAct where
  | alloc (count : UInt32)
  | free (base count : UInt32)

/-- A call that succeeds; a release is of frames that were given out. -/
inductive LedgerStep : Ledger → FrameAct → Ledger → Prop
  | alloc {p p' : Pmm} {out : Finset ℕ} {count : UInt32} {addr : ℕ} :
      p.allocFrames count.toNat = .ok (p', addr) →
      LedgerStep ⟨p, out⟩ (.alloc count) ⟨p', out ∪ span (addr / 4096) count.toNat⟩
  | free {p p' : Pmm} {out : Finset ℕ} {base count : UInt32} :
      span (base.toNat / 4096) count.toNat ⊆ out →
      p.freeFrames base.toNat count.toNat = .ok p' →
      LedgerStep ⟨p, out⟩ (.free base count) ⟨p', out \ span (base.toNat / 4096) count.toNat⟩

theorem Account.alloc {p p' : Pmm} {out : Finset ℕ} (h : Account p out) {count addr : ℕ}
    (hok : p.allocFrames count = .ok (p', addr)) :
    Account p' (out ∪ span (addr / 4096) count) := by
  obtain ⟨i, hi, haddr, hfree, hread⟩ := allocFrames_eq_ok hok
  unfold maxFrames at hi
  rw [show addr / 4096 = i by omega]
  have hsub : span i count ⊆ p.freeSet := by
    intro k hk
    rw [mem_span] at hk
    have := hfree (k - i) (by omega)
    rw [show i + (k - i) = k by omega] at this
    exact mem_freeSet.2 ⟨by omega, this⟩
  have hset : p'.freeSet = p.freeSet \ span i count := by
    ext k
    rw [Finset.mem_sdiff, mem_freeSet, mem_freeSet, mem_span, hread, Bool.or_eq_false_iff,
      decide_eq_false_iff_not, and_assoc]
  have hcard := Finset.card_sdiff_add_card_eq_card hsub
  rw [← hset, card_span] at hcard
  have hsum := h.sum
  have hmax := h.le
  have hcount : p'.usedFrames = p.usedFrames + count ∧ p'.availableFrames = p.availableFrames := by
    unfold Pmm.allocFrames at hok
    rw [K.bind_eq_ok] at hok
    obtain ⟨⟨b, a⟩, _, hok⟩ := hok
    cases hok
    exact ⟨Word32.add_eq (by omega), rfl⟩
  have hmono : ∀ k, p.used k = true → p'.used k = true := fun k hk => by rw [hread, hk, Bool.true_or]
  refine ⟨by omega, by omega, fun k hk => hmono k (h.low k hk), fun k hk => ?_, ?_⟩
  · rcases Finset.mem_union.1 hk with hk | hk
    · exact ⟨(h.out_used k hk).1, (h.out_used k hk).2.1, hmono k (h.out_used k hk).2.2⟩
    · have hk' := mem_span.1 hk
      have hwas := mem_freeSet.1 (hsub hk)
      have h256 : 256 ≤ k := by
        by_contra hlt
        rw [h.low k (by omega)] at hwas
        cases hwas.2
      rw [hread, decide_eq_true hk', Bool.or_true]
      exact ⟨h256, hwas.1, rfl⟩
  · have := Finset.card_union_le out (span i count)
    rw [card_span] at this
    have := h.out_le
    omega

theorem Account.free {p p' : Pmm} {out : Finset ℕ} (h : Account p out) {base count : ℕ}
    (hb : base < 4294967296) (hsub : span (base / 4096) count ⊆ out)
    (hok : p.freeFrames base count = .ok p') :
    Account p' (out \ span (base / 4096) count) ∧ count ≤ p.usedFrames := by
  have hle : base / 4096 + count ≤ 4294967296 := by
    by_cases h0 : count = 0
    · omega
    · have := (h.out_used _ (hsub (mem_span.2 (show base / 4096 ≤ base / 4096 + count - 1 ∧
        base / 4096 + count - 1 < base / 4096 + count by omega)))).2.1
      omega
  obtain ⟨hset, hread⟩ := freeFrames_eq_ok hle hok
  have hout := Finset.card_sdiff_add_card_eq_card hsub
  rw [card_span] at hout
  have hle' := h.out_le
  have hunion : p'.freeSet = p.freeSet ∪ span (base / 4096) count := by
    ext k
    rw [Finset.mem_union, mem_freeSet, mem_freeSet, mem_span, hread, Bool.and_eq_false_iff,
      Bool.not_eq_false', decide_eq_true_eq]
    constructor
    · rintro ⟨h1, h2 | h2⟩
      · exact Or.inl ⟨h1, h2⟩
      · exact Or.inr h2
    · rintro (h1 | h1)
      · exact ⟨h1.1, Or.inl h1.2⟩
      · exact ⟨(h.out_used k (hsub (mem_span.2 h1))).2.1, Or.inr h1⟩
  have hdisj : Disjoint p.freeSet (span (base / 4096) count) := by
    rw [Finset.disjoint_left]
    intro k h1 h2
    rw [mem_freeSet, (h.out_used k (hsub h2)).2.2] at h1
    cases h1.2
  have hcard : p'.freeSet.card = p.freeSet.card + count := by
    rw [hunion, Finset.card_union_of_disjoint hdisj, card_span]
  have hsum := h.sum
  have hmax := h.le
  have hcount : p'.usedFrames = p.usedFrames - count ∧ p'.availableFrames = p.availableFrames := by
    unfold Pmm.freeFrames at hok
    rw [K.bind_eq_ok] at hok
    obtain ⟨b, _, hok⟩ := hok
    cases hok
    exact ⟨Word32.sub_eq (by omega) (by omega), rfl⟩
  have hkeep : ∀ k, ¬ (base / 4096 ≤ k ∧ k < base / 4096 + count) → p.used k = true →
      p'.used k = true := fun k hk hu => by rw [hread, hu, decide_eq_false hk]; rfl
  refine ⟨⟨by omega, by omega, fun k hk => ?_, fun k hk => ?_, by omega⟩, by omega⟩
  · refine hkeep k (fun hin => ?_) (h.low k hk)
    have := (h.out_used k (hsub (mem_span.2 hin))).1
    omega
  · obtain ⟨hk, hnot⟩ := Finset.mem_sdiff.1 hk
    exact ⟨(h.out_used k hk).1, (h.out_used k hk).2.1,
      hkeep k (fun hin => hnot (mem_span.2 hin)) (h.out_used k hk).2.2⟩

/-- What the three records tell agrees, and the subtraction in `free_memory` does not wrap. -/
structure Accounted (p : Pmm) : Prop where
  free : p.freeMemory = 4096 * p.freeSet.card
  total : p.usedMemory + p.freeMemory = p.totalMemory
  used_le : p.usedFrames ≤ p.availableFrames

theorem Account.accounted {p : Pmm} {out : Finset ℕ} (h : Account p out) : Accounted p := by
  have hsum := h.sum
  have hle := h.le
  have hfree : p.freeMemory = 4096 * p.freeSet.card := by
    unfold freeMemory pageSize
    rw [Word32.sub_eq (by omega) (by omega), Word32.mul_eq (by omega)]
    omega
  refine ⟨hfree, ?_, by omega⟩
  rw [hfree]
  unfold usedMemory totalMemory pageSize
  rw [Word32.mul_eq (by omega), Word32.mul_eq (by omega)]
  omega

theorem Account.step {l l' : Ledger} {a : FrameAct} (h : Account l.pmm l.out)
    (hs : LedgerStep l a l') : Account l'.pmm l'.out := by
  cases hs with
  | alloc hok => exact h.alloc hok
  | @free _ _ _ base _ hsub hok => exact (h.free base.toNat_lt hsub hok).1

/-- A release takes no more from `used_frames` than it holds. -/
theorem Account.no_underflow {l l' : Ledger} {base count : UInt32} (h : Account l.pmm l.out)
    (hs : LedgerStep l (.free base count) l') : count.toNat ≤ l.pmm.usedFrames := by
  cases hs with
  | free hsub hok => exact (h.free base.toNat_lt hsub hok).2

/-- **PMM accounting.** `init` returns for every memory map with available entries below 4 GiB that
share no address, whatever the modules; from then on the three records agree after any calls, and no
subtraction wraps. -/
theorem pmm_accounting (img : KernelImage) (p₀ : Pmm) (mb : Multiboot) (hmap : mb.hasMemMap = true)
    (hbelow : ∀ e ∈ mb.mmap, e.isAvailable = true → e.addr.toNat + e.len.toNat ≤ 4294967296)
    (hdisj : mb.mmap.Pairwise fun e e' => e.isAvailable = true → e'.isAvailable = true →
      ∀ x, ¬ (e.Contains x ∧ e'.Contains x)) :
    ∃ p, init img p₀ mb = .ok p ∧ ∀ as l, Run LedgerStep ⟨p, ∅⟩ as l → Accounted l.pmm ∧
      ∀ base count l', LedgerStep l (.free base count) l' → count.toNat ≤ l.pmm.usedFrames := by
  obtain ⟨_, _, _, p, hok, _⟩ := exists_init_steps img p₀ mb hmap
  have hA := account_init hbelow hdisj hok
  refine ⟨p, hok, fun as l hrun => ?_⟩
  have hl : Account l.pmm l.out :=
    hrun.invariant (I := fun l => Account l.pmm l.out) (C := fun _ _ => True)
      (fun s a s' h _ hs => h.step hs) (along_true as _) hA
  exact ⟨hl.accounted, fun base count l' hs => hl.no_underflow hs⟩

/-- The machine `Multiboot.small`, whose module follows the kernel image. -/
theorem pmm_accounting_small : ∃ p, init .sample ⟨.empty, 0, 0⟩ .small = .ok p ∧ ∀ as l,
    Run LedgerStep ⟨p, ∅⟩ as l → Accounted l.pmm ∧
      ∀ base count l', LedgerStep l (.free base count) l' → count.toNat ≤ l.pmm.usedFrames := by
  refine pmm_accounting .sample ⟨.empty, 0, 0⟩ .small rfl (by decide) ?_
  refine List.pairwise_pair.2 fun _ _ x hx => ?_
  have h1 : x < 0x9FC00 := hx.1.2
  have h2 : 0x100000 ≤ x := hx.2.1
  omega

end Pmm

end Ospp
