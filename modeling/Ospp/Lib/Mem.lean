import Mathlib.Tactic
import Ospp.Lib.Word

/-!
# Byte memory with little-endian words

A memory maps every address to a byte. Addresses are naturals read modulo `2 ^ 32`, so a word
that straddles the end of the address space wraps to its beginning, as on the machine.

Two accesses are compared through the distance `Word32.sub x a` from the written address `a` to
the read address `x`: a write of `n` bytes at `a` changes exactly the bytes at distance below `n`.
-/

/-- The contents of a 32-bit address space. -/
abbrev Mem := ℕ → UInt8

namespace Mem

/-- The byte at an address. -/
def read8 (m : Mem) (a : ℕ) : UInt8 := m (a % 4294967296)

/-- Store a byte. -/
def write8 (m : Mem) (a : ℕ) (v : UInt8) : Mem :=
  fun x => if x = a % 4294967296 then v else m x

/-- The little-endian word at an address. -/
def read32 (m : Mem) (a : ℕ) : ℕ :=
  (m.read8 a).toNat + 256 * (m.read8 (a + 1)).toNat + 65536 * (m.read8 (a + 2)).toNat +
    16777216 * (m.read8 (a + 3)).toNat

/-- Byte `k` of a word. -/
def byteOf (v k : ℕ) : UInt8 := UInt8.ofNat (v / 256 ^ k)

/-- Store the bytes `f 0, …, f (n - 1)` from address `a` on, in order. -/
def writeBytes (m : Mem) (a : ℕ) (f : ℕ → UInt8) : ℕ → Mem
  | 0 => m
  | n + 1 => (writeBytes m a f n).write8 (a + n) (f n)

/-- Store a little-endian word. -/
def write32 (m : Mem) (a v : ℕ) : Mem := m.writeBytes a (byteOf v) 4

/-! ## Bytes -/

theorem read8_write8 (m : Mem) (a x : ℕ) (v : UInt8) :
    (m.write8 a v).read8 x = if Word32.sub x a = 0 then v else m.read8 x := by
  have h : x % 4294967296 = a % 4294967296 ↔ Word32.sub x a = 0 := by
    unfold Word32.sub; omega
  unfold read8 write8
  split_ifs with h1 h2 h2
  · rfl
  · exact absurd (h.1 h1) h2
  · exact absurd (h.2 h2) h1
  · rfl

theorem read8_writeBytes (m : Mem) (a x : ℕ) (f : ℕ → UInt8) :
    ∀ n, n ≤ 4294967296 →
      (m.writeBytes a f n).read8 x =
        if Word32.sub x a < n then f (Word32.sub x a) else m.read8 x := by
  intro n
  induction n with
  | zero => intro _; simp [writeBytes]
  | succ n ih =>
    intro hn
    rw [writeBytes, read8_write8, ih (by omega)]
    -- the last byte stored is the one at distance `n`
    have h : Word32.sub x (a + n) = 0 ↔ Word32.sub x a = n := by
      unfold Word32.sub; omega
    by_cases hx : Word32.sub x a = n
    · rw [if_pos (h.2 hx), if_pos (by omega), hx]
    · rw [if_neg (fun e => hx (h.1 e))]
      by_cases hlt : Word32.sub x a < n
      · rw [if_pos hlt, if_pos (by omega)]
      · rw [if_neg hlt, if_neg (by omega)]

/-- A byte at distance `n` or more from the start of a write of `n` bytes keeps its value. -/
theorem read8_writeBytes_of_le {m : Mem} {a x n : ℕ} {f : ℕ → UInt8} (hn : n ≤ 4294967296)
    (h : n ≤ Word32.sub x a) : (m.writeBytes a f n).read8 x = m.read8 x := by
  rw [read8_writeBytes m a x f n hn, if_neg (by omega)]

theorem read8_writeBytes_of_lt {m : Mem} {a x n : ℕ} {f : ℕ → UInt8} (hn : n ≤ 4294967296)
    (h : Word32.sub x a < n) : (m.writeBytes a f n).read8 x = f (Word32.sub x a) := by
  rw [read8_writeBytes m a x f n hn, if_pos h]

theorem read8_write32_of_le {m : Mem} {a x v : ℕ} (h : 4 ≤ Word32.sub x a) :
    (m.write32 a v).read8 x = m.read8 x :=
  read8_writeBytes_of_le (by norm_num) h

/-! ## Words -/

theorem read32_lt (m : Mem) (a : ℕ) : m.read32 a < 4294967296 := by
  have h0 := (m.read8 a).toNat_lt
  have h1 := (m.read8 (a + 1)).toNat_lt
  have h2 := (m.read8 (a + 2)).toNat_lt
  have h3 := (m.read8 (a + 3)).toNat_lt
  unfold read32; omega

/-- A word depends only on its four bytes. -/
theorem read32_congr {m m' : Mem} {a : ℕ}
    (h : ∀ k < 4, m'.read8 (a + k) = m.read8 (a + k)) : m'.read32 a = m.read32 a := by
  have h0 := h 0 (by norm_num)
  rw [Nat.add_zero] at h0
  unfold read32
  rw [h0, h 1 (by norm_num), h 2 (by norm_num), h 3 (by norm_num)]

theorem read32_write8_of_ne {m : Mem} {a x : ℕ} {v : UInt8} (ha : a < 4294967296)
    (hx : x + 4 ≤ 4294967296) (h : a < x ∨ x + 4 ≤ a) :
    (m.write8 a v).read32 x = m.read32 x := by
  apply read32_congr
  intro k hk
  unfold read8 write8
  rw [if_neg (by omega)]

theorem toNat_byteOf (v k : ℕ) : (byteOf v k).toNat = v / 256 ^ k % 256 := by
  simp [byteOf]

/-- Reading back a stored word. -/
theorem read32_write32_self (m : Mem) (a : ℕ) {v : ℕ} (hv : v < 4294967296) :
    (m.write32 a v).read32 a = v := by
  have hd : ∀ k < 4, Word32.sub (a + k) a = k := by
    intro k hk; unfold Word32.sub; omega
  have hb : ∀ k < 4, (m.write32 a v).read8 (a + k) = byteOf v k := by
    intro k hk
    unfold write32
    rw [read8_writeBytes_of_lt (by norm_num) (by rw [hd k hk]; exact hk), hd k hk]
  have h0 := hb 0 (by norm_num)
  rw [Nat.add_zero] at h0
  unfold read32
  rw [h0, hb 1 (by norm_num), hb 2 (by norm_num), hb 3 (by norm_num)]
  simp only [toNat_byteOf]
  omega

/-- A word none of whose bytes is written keeps its value. -/
theorem read32_write32_of_le {m : Mem} {a b v : ℕ} (h : 4 ≤ Word32.sub b a)
    (h' : 4 ≤ Word32.sub a b) : (m.write32 a v).read32 b = m.read32 b := by
  apply read32_congr
  intro k hk
  apply read8_write32_of_le
  unfold Word32.sub at *; omega

/-- The same, for two words that do not wrap. -/
theorem read32_write32_of_disjoint {m : Mem} {a b v : ℕ} (h : a + 4 ≤ b ∨ b + 4 ≤ a)
    (ha : a + 4 ≤ 4294967296) (hb : b + 4 ≤ 4294967296) :
    (m.write32 a v).read32 b = m.read32 b :=
  read32_write32_of_le (by unfold Word32.sub; omega) (by unfold Word32.sub; omega)

/-- Two different aligned words. -/
theorem read32_write32_of_ne {m : Mem} {a b v : ℕ} (ha : a % 4 = 0) (hb : b % 4 = 0) (hne : a ≠ b)
    (hal : a < 4294967296) (hbl : b < 4294967296) : (m.write32 a v).read32 b = m.read32 b :=
  read32_write32_of_disjoint (by omega) (by omega) (by omega)

/-- The bytes of a word that was read. -/
theorem byteOf_read32 (m : Mem) (a : ℕ) {k : ℕ} (hk : k < 4) :
    byteOf (m.read32 a) k = m.read8 (a + k) := by
  have h0 := (m.read8 a).toNat_lt
  have h1 := (m.read8 (a + 1)).toNat_lt
  have h2 := (m.read8 (a + 2)).toNat_lt
  have h3 := (m.read8 (a + 3)).toNat_lt
  apply UInt8.toNat_inj.1
  rw [toNat_byteOf]
  unfold read32
  interval_cases k
  · simp only [Nat.add_zero]; omega
  all_goals omega

/-- Storing the word that is already there changes nothing. -/
theorem read8_write32_read32 (m : Mem) (a x : ℕ) :
    (m.write32 a (m.read32 a)).read8 x = m.read8 x := by
  by_cases h : Word32.sub x a < 4
  · unfold write32
    rw [read8_writeBytes_of_lt (by norm_num) h, byteOf_read32 m a h]
    unfold read8
    congr 1
    unfold Word32.sub at *; omega
  · exact read8_write32_of_le (by omega)

/-! ## Runs of words -/

/-- Store consecutive words. -/
def writeWords (m : Mem) (a : ℕ) : List ℕ → Mem
  | [] => m
  | w :: ws => writeWords (m.write32 a w) (a + 4) ws

/-- A byte outside a run of words keeps its value. -/
theorem read8_writeWords_of_le : ∀ (ws : List ℕ) (m : Mem) (a x : ℕ),
    4 * ws.length ≤ Word32.sub x a → (m.writeWords a ws).read8 x = m.read8 x := by
  intro ws
  induction ws with
  | nil => intro m a x _; rfl
  | cons w ws ih =>
    intro m a x h
    rw [List.length_cons] at h
    rw [writeWords, ih _ _ _ (by unfold Word32.sub at *; omega), read8_write32_of_le (by omega)]

theorem writeWords_append (ws vs : List ℕ) : ∀ (m : Mem) (a : ℕ),
    m.writeWords a (ws ++ vs) = (m.writeWords a ws).writeWords (a + 4 * ws.length) vs := by
  induction ws with
  | nil => intro m a; simp [writeWords]
  | cons w ws ih =>
    intro m a
    rw [List.cons_append, writeWords, ih, writeWords, List.length_cons]
    congr 1
    omega

/-- Addresses are read modulo `2 ^ 32`. -/
theorem read8_mod (m : Mem) {a b : ℕ} (h : a % 4294967296 = b % 4294967296) :
    m.read8 a = m.read8 b := by
  unfold read8; rw [h]

theorem read32_mod (m : Mem) {a b : ℕ} (h : a % 4294967296 = b % 4294967296) :
    m.read32 a = m.read32 b := by
  have hb : ∀ k, m.read8 (a + k) = m.read8 (b + k) := by
    intro k; exact read8_mod m (by omega)
  have h0 := hb 0
  rw [Nat.add_zero, Nat.add_zero] at h0
  unfold read32
  rw [h0, hb 1, hb 2, hb 3]

/-- A run of words that ends in `v` and `v'` keeps every byte from these two on exactly when they
are already there. -/
theorem writeWords_keeps_iff (ws : List ℕ) {m : Mem} {a v v' : ℕ} (hv : v < 4294967296)
    (hv' : v' < 4294967296) (hlen : 4 * ws.length + 8 ≤ 4294967296) :
    (∀ x, 4 * ws.length ≤ Word32.sub x a → (m.writeWords a (ws ++ [v, v'])).read8 x = m.read8 x) ↔
      m.read32 (a + 4 * ws.length) = v ∧ m.read32 (a + 4 * ws.length + 4) = v' := by
  obtain ⟨b, hb⟩ : ∃ b, b = a + 4 * ws.length := ⟨_, rfl⟩
  obtain ⟨M, hM⟩ : ∃ M, M = m.writeWords a ws := ⟨_, rfl⟩
  have hw : m.writeWords a (ws ++ [v, v']) = (M.write32 b v).write32 (b + 4) v' := by
    rw [writeWords_append, ← hM, ← hb]; rfl
  have hkeep : ∀ x, 4 * ws.length ≤ Word32.sub x a → M.read8 x = m.read8 x := by
    intro x hx; rw [hM]; exact read8_writeWords_of_le ws m a x hx
  have hdist : ∀ k < 8, 4 * ws.length ≤ Word32.sub (b + k) a := by
    intro k hk; rw [hb]; unfold Word32.sub; omega
  have hMb : ∀ k < 5, M.read32 (b + k) = m.read32 (b + k) := by
    intro k hk
    apply read32_congr
    intro j hj
    rw [Nat.add_assoc]
    exact hkeep _ (hdist _ (by omega))
  have hsep : ∀ u, (M.write32 b u).read32 (b + 4) = M.read32 (b + 4) := by
    intro u
    exact read32_write32_of_le (by unfold Word32.sub; omega) (by unfold Word32.sub; omega)
  rw [hw, ← hb]
  constructor
  · intro h
    have hback : ∀ k < 5,
        ((M.write32 b v).write32 (b + 4) v').read32 (b + k) = m.read32 (b + k) := by
      intro k hk
      apply read32_congr
      intro j hj
      rw [Nat.add_assoc]
      exact h _ (hdist _ (by omega))
    constructor
    · have h0 : ((M.write32 b v).write32 (b + 4) v').read32 b = m.read32 b :=
        hback 0 (by omega)
      rw [← h0, read32_write32_of_le (by unfold Word32.sub; omega) (by unfold Word32.sub; omega),
        read32_write32_self _ _ hv]
    · rw [← hback 4 (by omega), read32_write32_self _ _ hv']
  · rintro ⟨h1, h2⟩ x hx
    have e1 : M.read32 b = v := by rw [← h1]; exact hMb 0 (by omega)
    have e2 : (M.write32 b v).read32 (b + 4) = v' := by rw [hsep, hMb 4 (by omega), h2]
    rw [← e2, read8_write32_read32, ← e1, read8_write32_read32, hkeep x hx]

/-! ## Runs of bytes in place -/

/-- The bytes stand in memory, from address `a` on. -/
def Holds (m : Mem) : ℕ → List UInt8 → Prop
  | _, [] => True
  | a, b :: bs => m.read8 a = b ∧ m.Holds (a + 1) bs

instance Holds.decidable (m : Mem) : ∀ (a : ℕ) (bs : List UInt8), Decidable (m.Holds a bs)
  | _, [] => inferInstanceAs (Decidable True)
  | a, b :: bs =>
    haveI := Holds.decidable m (a + 1) bs
    inferInstanceAs (Decidable (m.read8 a = b ∧ m.Holds (a + 1) bs))

theorem holds_append {m : Mem} : ∀ {bs cs : List UInt8} {a : ℕ},
    m.Holds a (bs ++ cs) ↔ m.Holds a bs ∧ m.Holds (a + bs.length) cs := by
  intro bs
  induction bs with
  | nil => intro cs a; simp [Holds]
  | cons b bs ih =>
    intro cs a
    rw [List.cons_append, Holds, Holds, ih, List.length_cons, and_assoc,
      show a + (bs.length + 1) = a + 1 + bs.length by omega]

theorem Holds.read8 {m : Mem} : ∀ {bs : List UInt8} {a k : ℕ} (_ : m.Holds a bs)
    (hk : k < bs.length), m.read8 (a + k) = bs[k]
  | b :: bs, a, 0, h, _ => h.1
  | b :: bs, a, k + 1, h, hk => by
    rw [show a + (k + 1) = a + 1 + k by omega, List.getElem_cons_succ]
    exact h.2.read8 _

theorem holds_iff {m : Mem} : ∀ {bs : List UInt8} {a : ℕ},
    m.Holds a bs ↔ ∀ i (hi : i < bs.length), m.read8 (a + i) = bs[i] := by
  intro bs
  induction bs with
  | nil => intro a; simp [Holds]
  | cons b bs ih =>
    intro a
    refine ⟨fun h i hi => h.read8 hi, fun h => ⟨h 0 (Nat.succ_pos _), ih.2 fun i hi => ?_⟩⟩
    rw [show a + 1 + i = a + (i + 1) by omega]
    exact h (i + 1) (Nat.succ_lt_succ hi)

/-- The first `n` bytes of a value, the lowest one first. -/
def leBytes (n v : ℕ) : List UInt8 := (List.range n).map (byteOf v)

@[simp] theorem length_leBytes (n v : ℕ) : (leBytes n v).length = n := by
  rw [leBytes, List.length_map, List.length_range]

theorem Holds.leByte {m : Mem} {a n v k : ℕ} (h : m.Holds a (leBytes n v)) (hk : k < n) :
    (m.read8 (a + k)).toNat = v / 256 ^ k % 256 := by
  rw [h.read8 (by rw [length_leBytes]; exact hk)]
  simp [leBytes, toNat_byteOf]

/-- Reading a word that stands in memory, perhaps as the low part of a larger value. -/
theorem Holds.read32 {m : Mem} {a n v : ℕ} (h : m.Holds a (leBytes n v)) (hn : 4 ≤ n) :
    m.read32 a = v % 4294967296 := by
  have h0 := h.leByte (k := 0) (by omega)
  have h1 := h.leByte (k := 1) (by omega)
  have h2 := h.leByte (k := 2) (by omega)
  have h3 := h.leByte (k := 3) (by omega)
  rw [Nat.add_zero] at h0
  unfold Mem.read32
  rw [h0, h1, h2, h3]
  omega

/-- The little-endian half word at an address. -/
def read16 (m : Mem) (a : ℕ) : ℕ := (m.read8 a).toNat + 256 * (m.read8 (a + 1)).toNat

theorem Holds.read16 {m : Mem} {a v : ℕ} (h : m.Holds a (leBytes 2 v)) (hv : v < 65536) :
    m.read16 a = v := by
  have h0 := h.leByte (k := 0) (by omega)
  have h1 := h.leByte (k := 1) (by omega)
  rw [Nat.add_zero] at h0
  unfold Mem.read16
  rw [h0, h1]
  omega

end Mem
