import Ospp.Klib.CString

/-!
# Copies that overlap

`memcpy`, `strcpy`, `strcat` and `strncpy`, with their arguments anywhere in memory. They all copy
forwards, a byte at a time, so a copy that runs into its own source goes on with what it has
written: it repeats the bytes between the two places (`memcpy_spec`).

`strcpy` measures its source first, and always ends. `strcat` looks for the terminator as it goes:
`strcat_spec` says when that has been copied over by then, and that the call never returns if it
has.
-/

namespace Ospp

/-! ## Bytes -/

/-- The first `i` turns of the loop of `memcpy`. -/
def memcpy (m : Mem) (dst src : ℕ) : ℕ → Mem
  | 0 => m
  | i + 1 =>
    let m := memcpy m dst src i
    m.write8 (dst + i) (m.read8 (src + i))

/-- The byte that turn `i` reads was written `dst - src` turns ago, or not at all. -/
theorem read_ahead (m : Mem) (dst src : ℕ) {i : ℕ} (hi : i < 4294967296) :
    (if Word32.sub (src + i) dst < i then
      m.read8 (src + Word32.sub (src + i) dst % Word32.sub dst src) else m.read8 (src + i)) =
      m.read8 (src + i % Word32.sub dst src) := by
  by_cases hin : Word32.sub (src + i) dst < i
  · have hsub : Word32.sub (src + i) dst = i - Word32.sub dst src := by
      unfold Word32.sub at *; omega
    have hle : Word32.sub dst src ≤ i := by unfold Word32.sub at *; omega
    rw [if_pos hin, hsub, ← Nat.mod_eq_sub_mod hle]
  · have hsmall : Word32.sub dst src = 0 ∨ i < Word32.sub dst src := by
      unfold Word32.sub at *; omega
    rw [if_neg hin]
    obtain h0 | hlt := hsmall
    · rw [h0, Nat.mod_zero]
    · rw [Nat.mod_eq_of_lt hlt]

/-- Byte `i` of the destination is byte `i % (dst - src)` of what the source was. -/
theorem read8_memcpy (m : Mem) (dst src x : ℕ) : ∀ n ≤ 4294967296,
    (memcpy m dst src n).read8 x =
      if Word32.sub x dst < n then m.read8 (src + Word32.sub x dst % Word32.sub dst src)
      else m.read8 x := by
  intro n
  induction n generalizing x with
  | zero => intro _; rfl
  | succ i ih =>
    intro hi
    rw [memcpy, Mem.read8_write8, ih _ (by omega), ih _ (by omega), read_ahead m dst src (by omega)]
    have hlast : Word32.sub x (dst + i) = 0 ↔ Word32.sub x dst = i := by
      unfold Word32.sub; omega
    by_cases hx : Word32.sub x dst = i
    · rw [if_pos (hlast.2 hx), if_pos (by omega), hx]
    · rw [if_neg fun e => hx (hlast.1 e)]
      by_cases hlt : Word32.sub x dst < i
      · rw [if_pos hlt, if_pos (by omega)]
      · rw [if_neg hlt, if_neg (by omega)]

theorem read8_memcpy_next (m : Mem) (dst src : ℕ) {i : ℕ} (hi : i < 4294967296) :
    (memcpy m dst src i).read8 (src + i) = m.read8 (src + i % Word32.sub dst src) := by
  rw [read8_memcpy m dst src _ i hi.le, read_ahead m dst src hi]

/-- The copy does not run into what it has still to read. -/
def CopiesClean (dst src n : ℕ) : Prop := Word32.sub dst src = 0 ∨ n ≤ Word32.sub dst src

theorem CopiesClean.mod {dst src n i : ℕ} (h : CopiesClean dst src n) (hi : i < n) :
    i % Word32.sub dst src = i := by
  obtain h0 | hle := h
  · rw [h0, Nat.mod_zero]
  · exact Nat.mod_eq_of_lt (by omega)

/-- **`memcpy`.** Where the copy runs into its own source it repeats the bytes before; the
destination gets what the source was, whatever that is, exactly when the two places are the same or
the destination does not begin within the source. -/
theorem memcpy_spec (dst src : ℕ) (count : UInt32) :
    (∀ (m : Mem) (x : ℕ), (memcpy m dst src count.toNat).read8 x =
      if Word32.sub x dst < count.toNat then
        m.read8 (src + Word32.sub x dst % Word32.sub dst src)
      else m.read8 x) ∧
    ((∀ m : Mem, ∀ i < count.toNat,
      (memcpy m dst src count.toNat).read8 (dst + i) = m.read8 (src + i)) ↔
        CopiesClean dst src count.toNat) := by
  obtain ⟨n, hn⟩ : ∃ n, n = count.toNat := ⟨_, rfl⟩
  have hle : n ≤ 4294967296 := by
    have := count.toNat_lt
    omega
  have hsub : ∀ i < n, Word32.sub (dst + i) dst = i := by
    intro i hi; unfold Word32.sub; omega
  rw [← hn]
  refine ⟨fun m x => read8_memcpy m dst src x n hle, fun h => ?_, fun h m i hi => ?_⟩
  · by_contra hc
    unfold CopiesClean at hc
    obtain ⟨D, hD⟩ : ∃ D, D = Word32.sub dst src := ⟨_, rfl⟩
    rw [← hD, not_or] at hc
    -- in a memory in which only byte `D` of the source is set, the copy repeats byte 0 there
    have hbad := h (fun x => if x = (src + D) % 4294967296 then 1 else 0) D (by omega)
    rw [read8_memcpy _ _ _ _ n hle, hsub D (by omega), if_pos (by omega), ← hD,
      Nat.mod_self] at hbad
    unfold Mem.read8 at hbad
    dsimp only at hbad
    have hne : (src + 0) % 4294967296 ≠ (src + D) % 4294967296 := by
      unfold Word32.sub at hD; omega
    rw [if_neg hne, if_pos rfl] at hbad
    exact absurd hbad (by decide)
  · rw [read8_memcpy _ _ _ _ n hle, hsub i hi, if_pos hi, h.mod hi]

/-! ## `strcpy` -/

/-- The loop is that of `memcpy`. -/
def strcpy (m : Mem) (dst src : ℕ) : K Mem := do
  let len ← strlen m.read8 src
  return (memcpy m dst src len.toNat).write8 (dst + len.toNat) 0

section

variable {m : Mem} {dst src : ℕ} {a b : CString}

theorem toNat_length (h : HoldsString m src b.bytes) :
    (UInt32.ofNat b.bytes.length).toNat = b.bytes.length := by
  rw [UInt32.toNat_ofNat']
  exact Nat.mod_eq_of_lt h.length_lt

theorem strlen_holds (h : HoldsString m src b.bytes) :
    strlen m.read8 src = .ok (UInt32.ofNat b.bytes.length) :=
  strlen_eq (spells_read8.2 h) h.length_lt

theorem HoldsString.end_zero (h : HoldsString m src b.bytes) :
    m.read8 (src + b.bytes.length) = 0 := (spells_read8.2 h).end

theorem HoldsString.byte (h : HoldsString m src b.bytes) {i : ℕ} (hi : i ≤ b.bytes.length) :
    m.read8 (src + i) = b.bytes.getD i 0 := spells_iff.1 (spells_read8.2 h) i hi

/-- A string that was copied cleanly, with a terminator behind it. -/
theorem holds_copy (h : HoldsString m src b.bytes) (hc : CopiesClean dst src b.bytes.length) :
    HoldsString ((memcpy m dst src b.bytes.length).write8 (dst + b.bytes.length) 0) dst
      b.bytes := by
  have hlt := h.length_lt
  apply spells_read8.1
  apply spells_iff.2
  intro i hi
  rw [Mem.read8_write8]
  by_cases he : i = b.bytes.length
  · rw [he, if_pos (by unfold Word32.sub; omega), List.getD_eq_default _ _ le_rfl]
  · have hsub : Word32.sub (dst + i) dst = i := by unfold Word32.sub; omega
    rw [if_neg (by unfold Word32.sub; omega), read8_memcpy _ _ _ _ _ hlt.le, hsub,
      if_pos (by omega), hc.mod (by omega), h.byte hi]

/-- `strcpy` ends, wherever it copies to; where it copies cleanly the string stands there. -/
theorem strcpy_spec (h : HoldsString m src b.bytes) : ∃ m', strcpy m dst src = .ok m' ∧
    (CopiesClean dst src b.bytes.length → HoldsString m' dst b.bytes) ∧
    ∀ x, b.bytes.length < Word32.sub x dst → m'.read8 x = m.read8 x := by
  have hlt := h.length_lt
  refine ⟨_, ?_, fun hc => holds_copy h hc, fun x hx => ?_⟩
  · unfold strcpy
    rw [strlen_holds h]
    show Except.ok _ = _
    rw [toNat_length h]
  · rw [Mem.read8_write8, if_neg (by unfold Word32.sub at *; omega),
      read8_memcpy _ _ _ _ _ hlt.le, if_neg (by omega)]

/-! ## `strcat` -/

/-- The loop of `strcat`; `fuel` bounds its turns. -/
def strcatLoop : ℕ → ℕ → ℕ → Mem → K Mem
  | 0, _, _, _ => .error .diverged
  | fuel + 1, last, src, m =>
    if m.read8 src ≠ 0 then strcatLoop fuel (last + 1) (src + 1) (m.write8 last (m.read8 src))
    else .ok (m.write8 last 0)

def strcat (fuel : ℕ) (m : Mem) (dst src : ℕ) : K Mem := do
  let len ← strlen m.read8 dst
  strcatLoop fuel (dst + len.toNat) src m

/-- Past its first turns the loop stands where that of `memcpy` does, for as long as it meets no
terminator. -/
theorem strcatLoop_eq (last : ℕ) : ∀ (n i fuel : ℕ), i + n ≤ 4294967296 →
    (∀ k, i ≤ k → k < i + n → m.read8 (src + k % Word32.sub last src) ≠ 0) →
    strcatLoop (n + fuel) (last + i) (src + i) (memcpy m last src i) =
      strcatLoop fuel (last + (i + n)) (src + (i + n)) (memcpy m last src (i + n)) := by
  intro n
  induction n with
  | zero => intro i fuel _ _; rw [Nat.zero_add, Nat.add_zero]
  | succ n ih =>
    intro i fuel hi hne
    have hread := read8_memcpy_next m last src (i := i) (by omega)
    have hnext := ih (i + 1) fuel (by omega) fun k h1 h2 => hne k (by omega) (by omega)
    rw [show n + 1 + fuel = (n + fuel) + 1 by omega, strcatLoop,
      if_pos (by rw [hread]; exact hne i le_rfl (by omega)), show i + (n + 1) = i + 1 + n by omega,
      ← hnext]
    rfl

/-- A loop that follows its own copy at a distance, with no terminator between, never ends. -/
theorem strcatLoop_diverges {D : ℕ} (hD : 0 < D) : ∀ (fuel : ℕ) {last src : ℕ} {m : Mem},
    Word32.sub last src = D → (∀ k < D, m.read8 (src + k) ≠ 0) →
      strcatLoop fuel last src m = .error .diverged := by
  intro fuel
  induction fuel with
  | zero => intro last src m _ _; rfl
  | succ fuel ih =>
    intro last src m hsub hwin
    have hfirst : m.read8 src ≠ 0 := hwin 0 hD
    rw [strcatLoop, if_pos hfirst]
    refine ih (by unfold Word32.sub at *; omega) fun k hk => ?_
    rw [Mem.read8_write8]
    split_ifs with hlast
    · exact hfirst
    · have hk' : k + 1 < D := by
        by_contra he
        apply hlast
        unfold Word32.sub at *; omega
      rw [show src + 1 + k = src + (k + 1) by omega]
      exact hwin (k + 1) hk'

/-- The two strings cannot share a byte where the copy stays clear of the second one's end. -/
theorem length_lt_of_clear (ha : HoldsString m dst a.bytes) (hb : HoldsString m src b.bytes)
    (hclear : b.bytes.length < Word32.sub (dst + a.bytes.length) src) :
    a.bytes.length + b.bytes.length < Word32.sub (dst + a.bytes.length) src := by
  obtain ⟨D, hD⟩ : ∃ D, D = Word32.sub (dst + a.bytes.length) src := ⟨_, rfl⟩
  rw [← hD] at hclear ⊢
  by_contra hle
  -- the terminator of the second string would stand within the first one
  have hk : a.bytes.length + b.bytes.length - D < a.bytes.length := by omega
  apply (spells_read8.2 ha).ne_zero hk
  rw [← hb.end_zero]
  apply Mem.read8_mod
  unfold Word32.sub at hD; omega

/-- **`strcat`.** Where the copy stays clear of the second string, its terminator included, the call
appends it and returns, having written nothing else; where it does not, the terminator is copied
over before it is met, and the call never returns. -/
theorem strcat_spec (ha : HoldsString m dst a.bytes) (hb : HoldsString m src b.bytes) :
    (CopiesClean (dst + a.bytes.length) src (b.bytes.length + 1) → ∀ fuel, b.bytes.length < fuel →
      ∃ m', strcat fuel m dst src = .ok m' ∧ HoldsString m' dst (a.bytes ++ b.bytes) ∧
        ∀ x, a.bytes.length + b.bytes.length < Word32.sub x dst → m'.read8 x = m.read8 x) ∧
    (¬ CopiesClean (dst + a.bytes.length) src (b.bytes.length + 1) →
      ∀ fuel, strcat fuel m dst src = .error .diverged) := by
  obtain ⟨last, hlast⟩ : ∃ last, last = dst + a.bytes.length := ⟨_, rfl⟩
  have hcall : ∀ fuel, strcat fuel m dst src = strcatLoop fuel last src m := by
    intro fuel
    unfold strcat
    rw [strlen_holds ha]
    show strcatLoop fuel (dst + (UInt32.ofNat a.bytes.length).toNat) src m = _
    rw [toNat_length ha, hlast]
  constructor
  · intro hclear fuel hfuel
    rw [← hlast] at hclear
    have hla := ha.length_lt
    have hlb := hb.length_lt
    have hroom : a.bytes.length + b.bytes.length < 4294967296 := by
      obtain h0 | hlt := hclear
      · have hempty : b.bytes.length = 0 := by
          by_contra hpos
          apply (spells_read8.2 hb).ne_zero (i := 0) (by omega)
          rw [← ha.end_zero]
          apply Mem.read8_mod
          unfold Word32.sub at h0; omega
        omega
      · rw [hlast] at hlt
        have hsum := length_lt_of_clear ha hb hlt
        unfold Word32.sub at hsum; omega
    obtain ⟨more, rfl⟩ : ∃ more, fuel = b.bytes.length + (more + 1) :=
      ⟨fuel - b.bytes.length - 1, by omega⟩
    have hloop := strcatLoop_eq last b.bytes.length 0 (more + 1) (by omega)
      fun k _ hk => by
        rw [hclear.mod (by omega)]
        exact (spells_read8.2 hb).ne_zero (by omega)
    rw [Nat.zero_add] at hloop
    have hend : (memcpy m last src b.bytes.length).read8 (src + b.bytes.length) = 0 := by
      rw [read8_memcpy_next m last src hlb, hclear.mod (Nat.lt_succ_self _), hb.end_zero]
    refine ⟨(memcpy m last src b.bytes.length).write8 (last + b.bytes.length) 0, ?_, ?_,
      fun x hx => ?_⟩
    · rw [hcall]
      refine Eq.trans hloop ?_
      rw [strcatLoop, hend, if_neg (by simp)]
    · unfold HoldsString
      rw [List.append_assoc, Mem.holds_append, ← hlast]
      refine ⟨Mem.holds_iff.2 fun i hi => ?_, holds_copy hb (hclear.imp id Nat.le_of_succ_le)⟩
      have hfar : b.bytes.length < Word32.sub (dst + i) last := by
        unfold Word32.sub; omega
      rw [Mem.read8_write8, if_neg (by unfold Word32.sub at *; omega),
        read8_memcpy _ _ _ _ _ hlb.le, if_neg (by omega)]
      exact (Mem.holds_append.1 ha).1.read8 hi
    · have hfar : b.bytes.length < Word32.sub x last := by
        unfold Word32.sub at *; omega
      rw [Mem.read8_write8, if_neg (by unfold Word32.sub at *; omega),
        read8_memcpy _ _ _ _ _ hlb.le, if_neg (by omega)]
  · intro hclear fuel
    rw [← hlast] at hclear
    unfold CopiesClean at hclear
    rw [hcall]
    refine strcatLoop_diverges (by omega) fuel rfl fun k hk => ?_
    exact (spells_read8.2 hb).ne_zero (by omega)

/-! ## `strncpy` -/

/-- The first loop of `strncpy`, from index `i` on with `left` turns to go; the second one writes
zeros. -/
def strncpyLoop (dst src : ℕ) : ℕ → ℕ → Mem → Mem
  | 0, _, m => m
  | left + 1, i, m =>
    if m.read8 (src + i) ≠ 0 then
      strncpyLoop dst src left (i + 1) (m.write8 (dst + i) (m.read8 (src + i)))
    else m.writeBytes (dst + i) (fun _ => 0) (left + 1)

def strncpy (m : Mem) (dst src : ℕ) (max : UInt32) : Mem := strncpyLoop dst src max.toNat 0 m

/-- The first loop stands where that of `memcpy` does, for as long as it meets no terminator. -/
theorem strncpyLoop_eq : ∀ (n i left : ℕ), i + n ≤ 4294967296 →
    (∀ k, i ≤ k → k < i + n → m.read8 (src + k % Word32.sub dst src) ≠ 0) →
    strncpyLoop dst src (n + left) i (memcpy m dst src i) =
      strncpyLoop dst src left (i + n) (memcpy m dst src (i + n)) := by
  intro n
  induction n with
  | zero => intro i left _ _; rw [Nat.zero_add, Nat.add_zero]
  | succ n ih =>
    intro i left hi hne
    have hread := read8_memcpy_next m dst src (i := i) (by omega)
    have hnext := ih (i + 1) left (by omega) fun k h1 h2 => hne k (by omega) (by omega)
    rw [show n + 1 + left = (n + left) + 1 by omega, strncpyLoop,
      if_pos (by rw [hread]; exact hne i le_rfl (by omega)), show i + (n + 1) = i + 1 + n by omega,
      ← hnext]
    rfl

/-- `strncpy` writes `max` bytes, the string and then zeros; there is a terminator among them only
if the string is shorter than `max`. -/
theorem strncpy_spec (hb : HoldsString m src b.bytes) (max : UInt32)
    (hclear : CopiesClean dst src (b.bytes.length + 1)) (x : ℕ) :
    (strncpy m dst src max).read8 x =
      if Word32.sub x dst < max.toNat then b.bytes.getD (Word32.sub x dst) 0 else m.read8 x := by
  obtain ⟨n, hn⟩ : ∃ n, n = max.toNat := ⟨_, rfl⟩
  have hle : n < 4294967296 := by
    have := max.toNat_lt
    omega
  have hlb := hb.length_lt
  have hne : ∀ k, 0 ≤ k → k < 0 + min n b.bytes.length →
      m.read8 (src + k % Word32.sub dst src) ≠ 0 := by
    intro k _ hk
    rw [hclear.mod (by omega)]
    exact (spells_read8.2 hb).ne_zero (by omega)
  unfold strncpy
  rw [← hn]
  by_cases hshort : b.bytes.length < n
  · have hloop := strncpyLoop_eq (min n b.bytes.length) 0 (n - b.bytes.length) (by omega) hne
    rw [Nat.min_eq_right hshort.le, Nat.zero_add, Nat.add_sub_cancel' hshort.le] at hloop
    obtain ⟨left, hleft⟩ : ∃ left, n - b.bytes.length = left + 1 :=
      ⟨n - b.bytes.length - 1, by omega⟩
    have hend : (memcpy m dst src b.bytes.length).read8 (src + b.bytes.length) = 0 := by
      rw [read8_memcpy_next m dst src hlb, hclear.mod (Nat.lt_succ_self _), hb.end_zero]
    refine (congrArg (Mem.read8 · x) hloop).trans ?_
    rw [hleft, strncpyLoop, hend, if_neg (by simp), ← hleft,
      Mem.read8_writeBytes _ _ _ _ _ (by omega), read8_memcpy _ _ _ _ _ hlb.le]
    by_cases hin : Word32.sub x dst < b.bytes.length
    · rw [if_neg (by unfold Word32.sub at *; omega), if_pos hin, if_pos (by omega),
        hclear.mod (by omega), hb.byte hin.le]
    · by_cases hpad : Word32.sub x dst < n
      · rw [if_pos (by unfold Word32.sub at *; omega), if_pos hpad,
          List.getD_eq_default _ _ (by omega)]
      · rw [if_neg (by unfold Word32.sub at *; omega), if_neg hin, if_neg hpad]
  · have hloop := strncpyLoop_eq (min n b.bytes.length) 0 0 (by omega) hne
    rw [Nat.min_eq_left (by omega), Nat.zero_add, Nat.add_zero] at hloop
    refine (congrArg (Mem.read8 · x) hloop).trans ?_
    rw [strncpyLoop, read8_memcpy _ _ _ _ _ hle.le]
    by_cases hin : Word32.sub x dst < n
    · rw [if_pos hin, if_pos hin, hclear.mod (by omega), hb.byte (by omega)]
    · rw [if_neg hin, if_neg hin]

end

/-- "ab" at 100, "cd" at 200. -/
def sampleStrings : Mem
  | 100 => 97
  | 101 => 98
  | 200 => 99
  | 201 => 100
  | _ => 0

theorem strcat_spec_sample : ∃ m', strcat 3 sampleStrings 100 200 = .ok m' ∧
    HoldsString m' 100 [97, 98, 99, 100] := by
  have ha : HoldsString sampleStrings 100 (⟨[97, 98], by decide⟩ : CString).bytes := by decide
  have hb : HoldsString sampleStrings 200 (⟨[99, 100], by decide⟩ : CString).bytes := by decide
  obtain ⟨m', hm', hs, _⟩ := (strcat_spec ha hb).1 (.inr (by decide)) 3 (by decide)
  exact ⟨m', hm', hs⟩

end Ospp
