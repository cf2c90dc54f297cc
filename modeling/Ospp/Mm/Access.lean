import Ospp.Lib.Mem
import Ospp.Mm.Ownership

/-!
# Access to memory through the page tables

Bytes and words of virtual memory. An access translates its address and reads or writes the frame
behind it, or is a page fault; a word is accessed as four bytes, which may lie in two pages.

A write outside the identity window never meets a page table (`Owned.writeByte`), so it leaves the
account of the frames and every mapping as they are.
-/

namespace Ospp

namespace Vmm

/-- The word `w` with byte `k` replaced. -/
def setByte (w k : ℕ) (b : UInt8) : ℕ :=
  w / 256 ^ (k + 1) * 256 ^ (k + 1) + b.toNat * 256 ^ k + w % 256 ^ k

def readByte (m : Vmm) (a : ℕ) : K UInt8 :=
  match m.translate a with
  | none => .error (.pageFault a)
  | some p => .ok (Mem.byteOf (m.phys (p / 4096) (p % 4096 / 4)) (p % 4))

def writeByte (m : Vmm) (a : ℕ) (b : UInt8) : K Vmm :=
  match m.translate a with
  | none => .error (.pageFault a)
  | some p =>
    .ok (m.set (p / 4096) (p % 4096 / 4) (setByte (m.phys (p / 4096) (p % 4096 / 4)) (p % 4) b))

/-- Write the bytes `f 0`, …, `f (n - 1)` from address `a` on: `memcpy`, `memset`, and the store of
a word. -/
def writeBytes (m : Vmm) (a : ℕ) (f : ℕ → UInt8) : ℕ → K Vmm
  | 0 => .ok m
  | n + 1 => do
    let m ← m.writeBytes a f n
    m.writeByte (Word32.add a n) (f n)

/-- The little-endian word at an address. -/
def read32 (m : Vmm) (a : ℕ) : K ℕ := do
  let b₀ ← m.readByte a
  let b₁ ← m.readByte (Word32.add a 1)
  let b₂ ← m.readByte (Word32.add a 2)
  let b₃ ← m.readByte (Word32.add a 3)
  return b₀.toNat + 256 * b₁.toNat + 65536 * b₂.toNat + 16777216 * b₃.toNat

def write32 (m : Vmm) (a w : ℕ) : K Vmm := m.writeBytes a (Mem.byteOf w) 4

end Vmm

namespace Mm

variable {s s' : Mm} {res ext own : ℕ → Prop}

/-- The walk of the processor in terms of pages. -/
theorem translate_eq {a : ℕ} (ha : a < 4294967296) :
    s.vmm.translate a = (s.mapped (a / 4096)).map fun f => f * 4096 + a % 4096 := by
  have h1 : pdeIndex a = a / 4096 / 1024 := by unfold pdeIndex; omega
  have h2 : pteIndex a = a / 4096 % 1024 := by unfold pteIndex; omega
  unfold Vmm.translate
  rw [h1, h2]
  by_cases hp : Entry.present (s.vmm.phys s.vmm.dir (a / 4096 / 1024)) = true
  · have ht := table_eq_some.2 ⟨hp, rfl⟩
    unfold mapped
    rw [pte_of_table ht]
    dsimp only
    rw [if_pos hp]
    split_ifs with hpp
    · rw [Entry.address_eq_frame]; rfl
    · rfl
  · have ht : s.table (a / 4096 / 1024) = none := table_eq_none.2 (by simpa using hp)
    rw [mapped_zero (pte_of_none ht)]
    dsimp only
    rw [if_neg hp]
    rfl

/-- The two states have the same frames in use, the same page tables and the same mappings; only
the contents of other frames may differ. -/
structure SameTables (s s' : Mm) : Prop where
  pmm : s'.pmm = s.pmm
  dir : s'.vmm.dir = s.vmm.dir
  table : ∀ j, s'.table j = s.table j
  mapped : ∀ u, u / 1024 < 1023 → s'.mapped u = s.mapped u

theorem SameTables.refl (s : Mm) : SameTables s s := ⟨rfl, rfl, fun _ => rfl, fun _ _ => rfl⟩

theorem SameTables.symm (h : SameTables s s') : SameTables s' s :=
  ⟨h.pmm.symm, h.dir.symm, fun j => (h.table j).symm, fun u hu => (h.mapped u hu).symm⟩

theorem SameTables.trans {s₁ : Mm} (h : SameTables s s₁) (h' : SameTables s₁ s') :
    SameTables s s' :=
  ⟨h'.pmm.trans h.pmm, h'.dir.trans h.dir, fun j => (h'.table j).trans (h.table j),
    fun u hu => (h'.mapped u hu).trans (h.mapped u hu)⟩

theorem SameTables.keepsTables (h : SameTables s s') : KeepsTables s s' :=
  ⟨h.dir, fun j _ _ ht => (h.table j).trans ht⟩

/-- The account depends on the tables and the bitmap only. -/
theorem Owned.of_same (h : Owned s res ext own) (hs : SameTables s s') : Owned s' res ext own := by
  have hused : ∀ k, s'.pmm.used k = s.pmm.used k := fun k => by rw [hs.pmm]
  refine ⟨⟨?_, ?_, fun i hi t ht => ?_, fun i hi t ht => ?_, fun i hi j hj t h1 h2 => ?_⟩,
    h.res_ext, fun k hk => ?_, fun k hk => ?_, fun k hk j hj => ?_, h.own_high,
    fun v f hv hm => ?_, fun u v f hu hv h1 h2 => ?_, fun v f hv hid hn hm => ?_, fun k hk => ?_⟩
  · have := table_eq_some.1 ((hs.table 1023).trans (table_eq_some.2 h.wf.self))
    exact ⟨this.1, this.2.trans hs.dir.symm⟩
  · rw [hs.dir, hused]; exact h.wf.dir_used
  · rw [hs.table] at ht; rw [hused]; exact h.wf.table_used i hi t ht
  · rw [hs.table] at ht; rw [hs.dir]; exact h.wf.table_ne_dir i hi t ht
  · rw [hs.table] at h1 h2; exact h.wf.table_inj i hi j hj t h1 h2
  · rw [hused]; exact h.ext_used k hk
  · rw [hs.dir]; exact h.ext_ne_dir k hk
  · rw [hs.table]; exact h.ext_ne_table k hk j hj
  · rw [hs.mapped v (h.own_high v hv).2] at hm
    obtain ⟨h1, h2, h3, h4⟩ := h.own_used v f hv hm
    refine ⟨by rw [hused]; exact h1, h2, by rw [hs.dir]; exact h3, fun j hj => ?_⟩
    rw [hs.table]; exact h4 j hj
  · rw [hs.mapped u (h.own_high u hu).2] at h1
    rw [hs.mapped v (h.own_high v hv).2] at h2
    exact h.own_inj u v f hu hv h1 h2
  · rw [hs.mapped v hv] at hm
    exact h.foreign v f hv hid hn hm
  · rw [hused] at hk
    rw [hs.dir]
    rcases h.exact k hk with h1 | h1 | ⟨j, hj, h1⟩ | ⟨v, hv, h1⟩
    · exact Or.inl h1
    · exact Or.inr (Or.inl h1)
    · exact Or.inr (Or.inr (Or.inl ⟨j, hj, by rw [hs.table]; exact h1⟩))
    · exact Or.inr (Or.inr (Or.inr ⟨v, hv, by rw [hs.mapped v (h.own_high v hv).2]; exact h1⟩))

/-- The frame of a page above the identity window is not a page table. -/
theorem Owned.frame_ne_table (h : Owned s res ext own) {v f : ℕ} (hv : v / 1024 < 1023)
    (hid : identityPages ≤ v) (hm : s.mapped v = some f) :
    f ≠ s.vmm.dir ∧ ∀ j < 1023, s.table j ≠ some f := by
  by_cases hown : own v
  · exact (h.own_used v f hown hm).2.2
  · have hext := h.res_ext f (h.foreign v f hv hid hown hm)
    exact ⟨h.ext_ne_dir f hext, h.ext_ne_table f hext⟩

/-- A word written in a frame that holds no table is not seen by any walk. -/
theorem same_set {f : ℕ} (hdir : f ≠ s.vmm.dir) (htab : ∀ j < 1023, s.table j ≠ some f) (i w : ℕ) :
    SameTables s ⟨s.pmm, s.vmm.set f i w⟩ := by
  have hword : ∀ g, g ≠ f → ∀ k, (s.vmm.set f i w).phys g k = s.vmm.phys g k := by
    intro g hg k
    exact if_neg fun e => hg e.1
  have htable : ∀ j, table ⟨s.pmm, s.vmm.set f i w⟩ j = s.table j := by
    intro j
    unfold table
    show (if Entry.present ((s.vmm.set f i w).phys s.vmm.dir j) then
      some (Entry.frame ((s.vmm.set f i w).phys s.vmm.dir j)) else none) = _
    rw [hword _ hdir.symm]
  refine ⟨rfl, rfl, htable, fun u hu => mapped_congr (pte_congr (htable _) fun t ht => ?_)⟩
  refine hword t ?_ _
  rintro rfl
  exact htab _ hu ht

/-- **Writing.** A byte written above the identity window and below the recursive one. -/
theorem Owned.writeByte (h : Owned s res ext own) {a : ℕ} {b : UInt8} {m : Vmm}
    (ha : identityPages ≤ a / 4096) (ha' : a / 4096 / 1024 < 1023)
    (hw : s.vmm.writeByte a b = .ok m) : SameTables s ⟨s.pmm, m⟩ := by
  unfold Vmm.writeByte at hw
  rw [translate_eq (by omega)] at hw
  cases hm : s.mapped (a / 4096) with
  | none => rw [hm] at hw; cases hw
  | some f =>
    rw [hm, Option.map_some] at hw
    cases hw
    rw [show (f * 4096 + a % 4096) / 4096 = f by omega]
    obtain ⟨hdir, htab⟩ := h.frame_ne_table ha' ha hm
    exact same_set hdir htab _ _

theorem Owned.writeBytes (h : Owned s res ext own) {a : ℕ} {f : ℕ → UInt8} : ∀ {n : ℕ} {m : Vmm},
    identityPages * 4096 ≤ a → a + n ≤ 1047552 * 4096 → s.vmm.writeBytes a f n = .ok m →
      SameTables s ⟨s.pmm, m⟩ := by
  intro n
  induction n with
  | zero => intro m _ _ hw; cases hw; exact .refl _
  | succ n ih =>
    intro m hlo hhi hw
    unfold identityPages at hlo
    rw [Vmm.writeBytes, K.bind_eq_ok] at hw
    obtain ⟨m₁, h₁, hw⟩ := hw
    have hs₁ := ih (by unfold identityPages; omega) (by omega) h₁
    rw [Word32.add_eq (by omega)] at hw
    exact hs₁.trans ((h.of_same hs₁).writeByte (by unfold identityPages; omega) (by omega) hw)

/-! ## Reading back -/

theorem byteOf_setByte_self (w : ℕ) (b : UInt8) {k : ℕ} (hk : k < 4) :
    Mem.byteOf (Vmm.setByte w k b) k = b := by
  have hb := b.toNat_lt
  apply UInt8.toNat_inj.1
  rw [Mem.toNat_byteOf]
  unfold Vmm.setByte
  interval_cases k <;> norm_num <;> omega

theorem byteOf_setByte_of_ne (w : ℕ) (b : UInt8) {k j : ℕ} (hk : k < 4) (hj : j < 4) (hne : j ≠ k) :
    Mem.byteOf (Vmm.setByte w k b) j = Mem.byteOf w j := by
  have hb := b.toNat_lt
  apply UInt8.toNat_inj.1
  rw [Mem.toNat_byteOf, Mem.toNat_byteOf]
  unfold Vmm.setByte
  interval_cases k <;> interval_cases j <;> first | exact absurd rfl hne | (norm_num; omega)

/-- A byte in terms of pages. -/
theorem readByte_eq {a : ℕ} (ha : a < 4294967296) :
    s.vmm.readByte a = match s.mapped (a / 4096) with
      | none => .error (.pageFault a)
      | some f => .ok (Mem.byteOf (s.vmm.phys f (a % 4096 / 4)) (a % 4)) := by
  unfold Vmm.readByte
  rw [translate_eq ha]
  cases s.mapped (a / 4096) with
  | none => rfl
  | some f =>
    dsimp only [Option.map_some]
    rw [show (f * 4096 + a % 4096) / 4096 = f by omega,
      show (f * 4096 + a % 4096) % 4096 = a % 4096 by omega,
      show (f * 4096 + a % 4096) % 4 = a % 4 by omega]

/-- **Reading back a byte.** On pages that own their frames a write changes the byte it is for and
no other. -/
theorem Owned.readByte_writeByte (h : Owned s res ext own) {a x : ℕ} {b : UInt8} {m : Vmm}
    (ha : own (a / 4096)) (hx : own (x / 4096)) (hw : s.vmm.writeByte a b = .ok m) :
    m.readByte x = if x = a then .ok b else s.vmm.readByte x := by
  obtain ⟨hlo, hhi⟩ := h.own_high _ ha
  have hxhi := (h.own_high _ hx).2
  have hsame := h.writeByte hlo hhi hw
  have hread := readByte_eq (s := ⟨s.pmm, m⟩) (a := x) (by omega)
  rw [hsame.mapped _ hxhi] at hread
  rw [show m.readByte x = _ from hread, readByte_eq (by omega)]
  unfold Vmm.writeByte at hw
  rw [translate_eq (by omega)] at hw
  cases hma : s.mapped (a / 4096) with
  | none => rw [hma] at hw; cases hw
  | some f =>
    rw [hma] at hw
    cases hw
    dsimp only
    rw [show (f * 4096 + a % 4096) / 4096 = f by omega,
      show (f * 4096 + a % 4096) % 4096 = a % 4096 by omega,
      show (f * 4096 + a % 4096) % 4 = a % 4 by omega]
    by_cases hxa : x = a
    · subst hxa
      rw [if_pos rfl, hma]
      dsimp only [Vmm.set]
      rw [if_pos ⟨rfl, rfl⟩, byteOf_setByte_self _ _ (by omega)]
    rw [if_neg hxa]
    cases hmx : s.mapped (x / 4096) with
    | none => rfl
    | some g =>
      dsimp only [Vmm.set]
      by_cases hword : g = f ∧ x % 4096 / 4 = a % 4096 / 4
      · obtain ⟨rfl, hword⟩ := hword
        have hpage := h.own_inj _ _ g hx ha hmx hma
        rw [if_pos ⟨rfl, hword⟩, byteOf_setByte_of_ne _ _ (by omega) (by omega) (by omega), hword]
      · rw [if_neg hword]

/-- **Reading back a run of bytes.** -/
theorem Owned.readByte_writeBytes (h : Owned s res ext own) {a x : ℕ} {f : ℕ → UInt8}
    (hx : own (x / 4096)) : ∀ {n : ℕ} {m : Vmm}, (∀ k < n, own ((a + k) / 4096)) →
      s.vmm.writeBytes a f n = .ok m →
        m.readByte x = if a ≤ x ∧ x < a + n then .ok (f (x - a)) else s.vmm.readByte x := by
  intro n
  induction n with
  | zero =>
    intro m _ hw
    cases hw
    rw [if_neg (by omega)]
  | succ n ih =>
    intro m hown hw
    have hbound : ∀ k < n + 1, a + k < 4294967296 := by
      intro k hk
      have := (h.own_high _ (hown k hk)).2
      omega
    rw [Vmm.writeBytes, K.bind_eq_ok] at hw
    obtain ⟨m₁, h₁, hw⟩ := hw
    rw [Word32.add_eq (hbound n (by omega))] at hw
    have hs₁ : SameTables s ⟨s.pmm, m₁⟩ := by
      rcases Nat.eq_zero_or_pos n with rfl | hpos
      · cases h₁
        exact .refl _
      · have hfirst := h.own_high _ (hown 0 (by omega))
        have hlast := h.own_high _ (hown (n - 1) (by omega))
        unfold identityPages at hfirst
        exact h.writeBytes (by unfold identityPages; omega) (by omega) h₁
    have hbyte := (h.of_same hs₁).readByte_writeByte (hown n (by omega)) hx hw
    rw [hbyte, ih (fun k hk => hown k (by omega)) h₁]
    by_cases hxn : x = a + n
    · rw [if_pos hxn, if_pos (by omega), hxn, Nat.add_sub_cancel_left]
    · rw [if_neg hxn]
      by_cases hin : a ≤ x ∧ x < a + n
      · rw [if_pos hin, if_pos (by omega)]
      · rw [if_neg hin, if_neg (by omega)]

/-- The walk reads the tables only, also for the pages of the recursive window. -/
theorem SameTables.translate (h : SameTables s s') (hself : s.vmm.SelfMapped) {a : ℕ}
    (ha : a < 4294967296) : s'.vmm.translate a = s.vmm.translate a := by
  rw [translate_eq ha, translate_eq ha]
  by_cases hv : a / 4096 / 1024 < 1023
  · rw [h.mapped _ hv]
  · have hdir : s.table 1023 = some s.vmm.dir := table_eq_some.2 hself
    have hdir' : s'.table 1023 = some s'.vmm.dir := by rw [h.table, hdir, h.dir]
    have htop : a / 4096 / 1024 = 1023 := by omega
    have hwin : s.mapped (a / 4096) = s.table (a / 4096 % 1024) := by
      unfold Mm.mapped
      rw [pte_of_table (by rw [htop]; exact hdir)]
      rfl
    have hwin' : s'.mapped (a / 4096) = s'.table (a / 4096 % 1024) := by
      unfold Mm.mapped
      rw [pte_of_table (by rw [htop]; exact hdir')]
      rfl
    rw [hwin, hwin', h.table]

/-- A byte that is behind another address keeps its value. -/
theorem SameTables.readByte_writeByte {a x : ℕ} {b : UInt8} {m : Vmm}
    (h : SameTables s ⟨s.pmm, m⟩) (hself : s.vmm.SelfMapped) (hx : x < 4294967296)
    (hw : s.vmm.writeByte a b = .ok m) (hne : s.vmm.translate x ≠ s.vmm.translate a) :
    m.readByte x = s.vmm.readByte x := by
  have htr : m.translate x = s.vmm.translate x := h.translate hself hx
  unfold Vmm.readByte
  rw [htr]
  cases hp : s.vmm.translate x with
  | none => rfl
  | some p =>
    unfold Vmm.writeByte at hw
    cases hq : s.vmm.translate a with
    | none => rw [hq] at hw; cases hw
    | some q =>
      rw [hq] at hw
      cases hw
      have hpq : p ≠ q := fun e => hne (by rw [hp, hq, e])
      dsimp only [Vmm.set]
      by_cases hword : p / 4096 = q / 4096 ∧ p % 4096 / 4 = q % 4096 / 4
      · rw [if_pos hword, byteOf_setByte_of_ne _ _ (by omega) (by omega) (by omega), hword.1,
          hword.2]
      · rw [if_neg hword]

/-- The same for a run of bytes, wherever the other address is. -/
theorem Owned.readByte_writeBytes_of_ne (h : Owned s res ext own) {a x : ℕ} {f : ℕ → UInt8}
    (hx : x < 4294967296) : ∀ {n : ℕ} {m : Vmm}, identityPages * 4096 ≤ a →
      a + n ≤ 1047552 * 4096 → (∀ k < n, s.vmm.translate x ≠ s.vmm.translate (a + k)) →
      s.vmm.writeBytes a f n = .ok m → m.readByte x = s.vmm.readByte x := by
  intro n
  induction n with
  | zero => intro m _ _ _ hw; cases hw; rfl
  | succ n ih =>
    intro m hlo hhi hne hw
    unfold identityPages at hlo
    rw [Vmm.writeBytes, K.bind_eq_ok] at hw
    obtain ⟨m₁, h₁, hw⟩ := hw
    have hs₁ := h.writeBytes (by unfold identityPages; omega) (by omega) h₁
    have ho₁ := h.of_same hs₁
    rw [Word32.add_eq (by omega)] at hw
    have hs := ho₁.writeByte (by unfold identityPages; omega) (by omega) hw
    have hself := h.wf.self
    rw [hs.readByte_writeByte ho₁.wf.self hx hw,
      ih (by unfold identityPages; omega) (by omega) (fun k hk => hne k (by omega)) h₁]
    rw [hs₁.translate hself hx, hs₁.translate hself (by omega)]
    exact hne n (by omega)

/-- A run of mapped bytes can be written. -/
theorem Owned.exists_writeBytes (h : Owned s res ext own) {a : ℕ} {f : ℕ → UInt8} : ∀ {n : ℕ},
    (∀ k < n, own ((a + k) / 4096) ∧ ∃ g, s.mapped ((a + k) / 4096) = some g) →
      ∃ m, s.vmm.writeBytes a f n = .ok m := by
  intro n
  induction n with
  | zero => intro _; exact ⟨_, rfl⟩
  | succ n ih =>
    intro hown
    obtain ⟨m₁, h₁⟩ := ih fun k hk => hown k (by omega)
    obtain ⟨hn, g, hg⟩ := hown n (by omega)
    obtain ⟨hlo, hhi⟩ := h.own_high _ hn
    have hs₁ : SameTables s ⟨s.pmm, m₁⟩ := by
      rcases Nat.eq_zero_or_pos n with rfl | hpos
      · cases h₁
        exact .refl _
      · have hfirst := h.own_high _ (hown 0 (by omega)).1
        unfold identityPages at hfirst
        exact h.writeBytes (by unfold identityPages; omega) (by omega) h₁
    have hmapped : (⟨s.pmm, m₁⟩ : Mm).mapped ((a + n) / 4096) = some g := by
      rw [hs₁.mapped _ hhi, hg]
    rw [Vmm.writeBytes, h₁]
    show ∃ m, m₁.writeByte (Word32.add a n) (f n) = .ok m
    rw [Word32.add_eq (by omega)]
    have htrans := translate_eq (s := ⟨s.pmm, m₁⟩) (a := a + n) (by omega)
    rw [hmapped] at htrans
    unfold Vmm.writeByte
    rw [show m₁.translate (a + n) = _ from htrans]
    exact ⟨_, rfl⟩

/-- New mappings do not change what is read on pages that own their frames. -/
theorem Owned.readByte_mapFresh (h : Owned s res ext own) {pmm : Pmm}
    {v pages physAddr flags : ℕ} (hflags : flags % 2 = 1) (hv : v + pages ≤ 1047552)
    (hid : identityPages ≤ v) (hown : ∀ u, v ≤ u → u < v + pages → ¬ own u)
    (ha : s.pmm.allocFrames pages = .ok (pmm, physAddr))
    (hmap : Mm.mapPages ⟨pmm, s.vmm⟩ (v * 4096) physAddr pages flags = .ok s') {x : ℕ}
    (hx : own (x / 4096)) : s'.vmm.readByte x = s.vmm.readByte x := by
  obtain ⟨_, hxhi⟩ := h.own_high _ hx
  obtain ⟨_, _, hkeep, _⟩ := h.mapFresh hflags hv hid hown ha hmap
  obtain ⟨f, _, hf, _, ho⟩ := h.allocFrames ha
  rw [readByte_eq (by omega), readByte_eq (by omega),
    hkeep _ hxhi fun hin => hown _ hin.1 hin.2 hx]
  cases hm : s.mapped (x / 4096) with
  | none => rfl
  | some g =>
    obtain ⟨hused, _, hdir, htab⟩ := ho.own_used _ g hx hm
    unfold Mm.mapPages at hmap
    rw [pageBase_eq (by omega), Nat.mul_div_cancel _ (by norm_num)] at hmap
    dsimp only
    rw [phys_mapRun (i := 0) ho.wf (by omega) hused hdir htab hmap]

end Mm

end Ospp
