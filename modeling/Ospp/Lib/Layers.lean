import Ospp.Lib.Mem

/-!
# Bytes laid over a memory

A `Layer` covers a range of addresses with values of its own. `lay` puts a list of layers over a
memory, the first one at the bottom; what is seen at an address is the value of the last layer that
covers it (`top`), or the memory where none does (`lay_eq`).

A `Fixup` is a layer of one little-endian word that depends on the word below. Fixups of words that
have no byte in common do not see each other: each finds the word of the original memory
(`wordAt_applyAll`), and their order does not matter (`applyAll_perm`).
-/

/-- The values `val 0`, …, `val (len - 1)` for the addresses from `addr` on. -/
structure Layer (β : Type) where
  addr : ℕ
  len : ℕ
  val : ℕ → β

namespace Layer

variable {β : Type}

def Covers (l : Layer β) (x : ℕ) : Prop := l.addr ≤ x ∧ x < l.addr + l.len

instance (l : Layer β) (x : ℕ) : Decidable (l.Covers x) :=
  inferInstanceAs (Decidable (l.addr ≤ x ∧ x < l.addr + l.len))

/-- The memory with the layer on it. -/
def put (l : Layer β) (μ : ℕ → β) (x : ℕ) : β := if l.Covers x then l.val (x - l.addr) else μ x

theorem put_of_covers {l : Layer β} {μ : ℕ → β} {x : ℕ} (h : l.Covers x) :
    l.put μ x = l.val (x - l.addr) := if_pos h

theorem put_of_not_covers {l : Layer β} {μ : ℕ → β} {x : ℕ} (h : ¬ l.Covers x) :
    l.put μ x = μ x := if_neg h

/-- The memory with a list of layers on it. -/
def lay : List (Layer β) → (ℕ → β) → ℕ → β
  | [], μ => μ
  | l :: ls, μ => lay ls (l.put μ)

/-- The last layer that covers an address. -/
def top : List (Layer β) → ℕ → Option (Layer β)
  | [], _ => none
  | l :: ls, x => (top ls x).or (if l.Covers x then some l else none)

theorem lay_append : ∀ (ls ls' : List (Layer β)) (μ : ℕ → β),
    lay (ls ++ ls') μ = lay ls' (lay ls μ) := by
  intro ls
  induction ls with
  | nil => intro _ _; rfl
  | cons l ls ih => intro ls' μ; exact ih ls' _

/-- **What is seen at an address.** -/
theorem lay_eq : ∀ (ls : List (Layer β)) (μ : ℕ → β) (x : ℕ),
    lay ls μ x = match top ls x with
      | some l => l.val (x - l.addr)
      | none => μ x := by
  intro ls
  induction ls with
  | nil => intro _ _; rfl
  | cons l ls ih =>
    intro μ x
    rw [lay, top, ih]
    cases top ls x with
    | some l' => rfl
    | none =>
      by_cases hl : l.Covers x
      · rw [if_pos hl]
        exact put_of_covers hl
      · rw [if_neg hl]
        exact put_of_not_covers hl

/-- A later layer comes first. -/
theorem top_append : ∀ (ls ls' : List (Layer β)) (x : ℕ),
    top (ls ++ ls') x = (top ls' x).or (top ls x) := by
  intro ls
  induction ls with
  | nil => intro ls' x; exact (Option.or_none).symm
  | cons l ls ih =>
    intro ls' x
    rw [List.cons_append, top, top, ih, Option.or_assoc]

/-- Only the memory at the address matters. -/
theorem lay_congr {ls : List (Layer β)} {μ ν : ℕ → β} {x : ℕ} (h : μ x = ν x) :
    lay ls μ x = lay ls ν x := by
  rw [lay_eq, lay_eq, h]

theorem top_eq_none : ∀ {ls : List (Layer β)} {x : ℕ},
    top ls x = none ↔ ∀ l ∈ ls, ¬ l.Covers x := by
  intro ls
  induction ls with
  | nil => intro x; exact iff_of_true rfl fun l hl => absurd hl List.not_mem_nil
  | cons l ls ih =>
    intro x
    rw [top, Option.or_eq_none_iff, ih, List.forall_mem_cons, and_comm]
    refine and_congr_left fun _ => ?_
    by_cases hl : l.Covers x
    · rw [if_pos hl]
      exact iff_of_false (fun h => by cases h) fun h => h hl
    · rw [if_neg hl]
      exact iff_of_true rfl hl

/-- Nothing is changed where no layer is. -/
theorem lay_of_forall {ls : List (Layer β)} {μ : ℕ → β} {x : ℕ} (h : ∀ l ∈ ls, ¬ l.Covers x) :
    lay ls μ x = μ x := by
  rw [lay_eq, top_eq_none.2 h]

end Layer

/-! ## Words that are patched -/

/-- The little-endian word at an address. -/
def wordAt (μ : ℕ → UInt8) (a : ℕ) : ℕ :=
  (μ a).toNat + 256 * (μ (a + 1)).toNat + 65536 * (μ (a + 2)).toNat + 16777216 * (μ (a + 3)).toNat

theorem wordAt_congr {μ ν : ℕ → UInt8} {a : ℕ} (h : ∀ k < 4, ν (a + k) = μ (a + k)) :
    wordAt ν a = wordAt μ a := by
  have h0 := h 0 (by norm_num)
  rw [Nat.add_zero] at h0
  unfold wordAt
  rw [h0, h 1 (by norm_num), h 2 (by norm_num), h 3 (by norm_num)]

/-- What is done to the word at `addr`. -/
structure Fixup where
  addr : ℕ
  value : ℕ → ℕ

namespace Fixup

/-- The bytes of the new word. -/
def layer (p : Fixup) (μ : ℕ → UInt8) : Layer UInt8 :=
  ⟨p.addr, 4, Mem.byteOf (p.value (wordAt μ p.addr))⟩

def apply (p : Fixup) (μ : ℕ → UInt8) : ℕ → UInt8 := (p.layer μ).put μ

def applyAll (ps : List Fixup) (μ : ℕ → UInt8) : ℕ → UInt8 := ps.foldl (fun μ p => p.apply μ) μ

/-- The words have no byte in common. -/
def Apart (p q : Fixup) : Prop := p.addr + 4 ≤ q.addr ∨ q.addr + 4 ≤ p.addr

instance : Std.Symm Apart := ⟨fun _ _ h => h.symm⟩

variable {p q : Fixup} {ps qs : List Fixup} {μ : ℕ → UInt8}

theorem apply_of_lt {k : ℕ} (hk : k < 4) :
    p.apply μ (p.addr + k) = Mem.byteOf (p.value (wordAt μ p.addr)) k := by
  have hc : (p.layer μ).Covers (p.addr + k) := ⟨by show p.addr ≤ _; omega, by
    show p.addr + k < p.addr + 4; omega⟩
  unfold apply
  rw [Layer.put_of_covers hc]
  show Mem.byteOf _ (p.addr + k - p.addr) = _
  rw [Nat.add_sub_cancel_left]

theorem apply_of_outside {x : ℕ} (h : x < p.addr ∨ p.addr + 4 ≤ x) : p.apply μ x = μ x := by
  refine Layer.put_of_not_covers fun hc => ?_
  have h1 : p.addr ≤ x := hc.1
  have h2 : x < p.addr + 4 := hc.2
  omega

theorem wordAt_apply_self : wordAt (p.apply μ) p.addr = p.value (wordAt μ p.addr) % 4294967296 := by
  have h0 : p.apply μ (p.addr + 0) = Mem.byteOf (p.value (wordAt μ p.addr)) 0 :=
    apply_of_lt (by norm_num)
  rw [Nat.add_zero] at h0
  unfold wordAt
  rw [h0, apply_of_lt (by norm_num), apply_of_lt (by norm_num), apply_of_lt (by norm_num)]
  simp only [Mem.toNat_byteOf]
  unfold wordAt
  omega

/-- A fixup does not see one of another word. -/
theorem wordAt_apply (h : Apart p q) : wordAt (p.apply μ) q.addr = wordAt μ q.addr := by
  refine wordAt_congr fun k hk => apply_of_outside ?_
  unfold Apart at h
  omega

theorem apply_comm (h : Apart p q) : q.apply (p.apply μ) = p.apply (q.apply μ) := by
  have hp : ∀ ν : ℕ → UInt8, wordAt ν p.addr = wordAt μ p.addr →
      ∀ k < 4, p.apply ν (p.addr + k) = Mem.byteOf (p.value (wordAt μ p.addr)) k := by
    intro ν hν k hk
    rw [apply_of_lt hk, hν]
  have hq : ∀ ν : ℕ → UInt8, wordAt ν q.addr = wordAt μ q.addr →
      ∀ k < 4, q.apply ν (q.addr + k) = Mem.byteOf (q.value (wordAt μ q.addr)) k := by
    intro ν hν k hk
    rw [apply_of_lt hk, hν]
  have h' : Apart q p := h.symm
  funext x
  unfold Apart at h
  by_cases hxp : p.addr ≤ x ∧ x < p.addr + 4
  · obtain ⟨k, rfl⟩ := Nat.exists_eq_add_of_le hxp.1
    rw [apply_of_outside (p := q) (by omega), hp μ rfl k (by omega),
      hp _ (wordAt_apply h') k (by omega)]
  by_cases hxq : q.addr ≤ x ∧ x < q.addr + 4
  · obtain ⟨k, rfl⟩ := Nat.exists_eq_add_of_le hxq.1
    rw [apply_of_outside (p := p) (by omega), hq μ rfl k (by omega),
      hq _ (wordAt_apply h) k (by omega)]
  rw [apply_of_outside (p := q) (by omega), apply_of_outside (p := p) (by omega),
    apply_of_outside (p := p) (by omega), apply_of_outside (p := q) (by omega)]

/-- Bytes outside all words are as before. -/
theorem applyAll_of_outside : ∀ {ps : List Fixup} {μ : ℕ → UInt8} {x : ℕ},
    (∀ p ∈ ps, x < p.addr ∨ p.addr + 4 ≤ x) → applyAll ps μ x = μ x := by
  intro ps
  induction ps with
  | nil => intro _ _ _; rfl
  | cons p ps ih =>
    intro μ x h
    show applyAll ps (p.apply μ) x = μ x
    rw [ih fun q hq => h q (List.mem_cons_of_mem _ hq), apply_of_outside (h p List.mem_cons_self)]

/-- **Each fixup is applied once**, to the word of the original memory. -/
theorem wordAt_applyAll : ∀ {ps : List Fixup} {μ : ℕ → UInt8}, ps.Pairwise Apart →
    ∀ p ∈ ps, wordAt (applyAll ps μ) p.addr = p.value (wordAt μ p.addr) % 4294967296 := by
  intro ps
  induction ps with
  | nil => intro _ _ p hp; cases hp
  | cons q ps ih =>
    intro μ h p hp
    obtain ⟨hq, hps⟩ := List.pairwise_cons.1 h
    show wordAt (applyAll ps (q.apply μ)) p.addr = _
    rcases List.mem_cons.1 hp with rfl | hp
    · rw [← wordAt_apply_self]
      refine wordAt_congr fun k hk => applyAll_of_outside fun q' hq' => ?_
      have := hq q' hq'
      unfold Apart at this
      omega
    · rw [ih hps p hp, wordAt_apply (hq p hp)]

/-- **The order does not matter.** -/
theorem applyAll_perm (h : ps.Pairwise Apart) (hp : ps.Perm qs) : applyAll ps μ = applyAll qs μ := by
  induction hp generalizing μ with
  | nil => rfl
  | cons p _ ih => exact ih (List.pairwise_cons.1 h).2
  | swap p q ps =>
    have hpq : Apart q p := (List.pairwise_cons.1 h).1 p List.mem_cons_self
    show applyAll ps (p.apply (q.apply μ)) = applyAll ps (q.apply (p.apply μ))
    rw [apply_comm hpq]
  | trans h₁ _ ih₁ ih₂ => rw [ih₁ h, ih₂ (h₁.pairwise h fun {_ _} hr => hr.symm)]

end Fixup
