import Ospp.Driver.PitHandlers
import Ospp.Lib.Mem

/-!
# The interrupt descriptor table

`idt::init` writes 256 descriptors of eight bytes, in the order of the source: the reserved byte,
the two halves of the wrapper's address, the selector, the attributes. The processor puts the parts
together again when it takes an interrupt (`gateAt`). The wrappers' addresses are chosen by the
compiler, and are a parameter.

`idt_init`: the gate of each vector leads to the wrapper instantiated for it, and no byte outside
the table is written.
-/

namespace Ospp

namespace Idt

/-! ## The table of wrappers -/

structure ISRDescriptor where
  entry : UInt32
  kind : Pit.InterruptFrameKind
  hasErrorCode : Bool
  deriving DecidableEq, Repr

/-- The vectors for which the processor pushes an error code. -/
def hasErrorCode (n : ℕ) : Bool :=
  n = 8 || n = 10 || n = 11 || n = 12 || n = 13 || n = 14 || n = 17 || n = 21

/-- `get_isr_wrapper<N>`; `wrapper n` is the address of the function instantiated for `n`. -/
def getIsrWrapper (wrapper : ℕ → UInt32) (n : ℕ) : ISRDescriptor where
  entry := wrapper n
  kind := Pit.isrFrameKind n
  hasErrorCode := Idt.hasErrorCode n

/-! ## Writing the descriptors -/

/-- `Flags::PRESENT | Flags::INTERRUPT_GATE`. -/
def gateFlags : UInt8 := 0x80 ||| 0x0E

/-- `Entry::set_offset` on the entry at address `e`. -/
def setOffset (m : Mem) (e offset : ℕ) : Mem :=
  (m.writeBytes e (Mem.byteOf (offset % 65536)) 2).writeBytes (e + 6)
    (Mem.byteOf (offset / 65536 % 65536)) 2

def setEntry (m : Mem) (entries vector handler : ℕ) (flags : UInt8) (selector : ℕ) : Mem :=
  let e := entries + 8 * vector
  ((setOffset m e handler).writeBytes (e + 2) (Mem.byteOf selector) 2).write8 (e + 5) flags

/-- The first `i` turns of the loop of `idt::init`. -/
def initLoop (isrTable : ℕ → ISRDescriptor) (entries : ℕ) (m : Mem) : ℕ → Mem
  | 0 => m
  | i + 1 =>
    let m := initLoop isrTable entries m i
    setEntry (m.write8 (entries + 8 * i + 4) 0) entries i (isrTable i).entry.toNat gateFlags 0x08

def init (isrTable : ℕ → ISRDescriptor) (entries : ℕ) (m : Mem) : Mem :=
  initLoop isrTable entries m 256

structure Ptr where
  limit : ℕ
  base : ℕ
  deriving DecidableEq, Repr

/-- `idt::ptr`. -/
def ptr (entries : ℕ) : Ptr := ⟨8 * 256 - 1, entries⟩

/-! ## Reading them -/

/-- A gate, as the processor reads it. -/
structure Gate where
  offset : ℕ
  selector : ℕ
  present : Bool
  dpl : ℕ
  type : ℕ
  deriving DecidableEq, Repr

/-- The gate of a vector; none beyond the limit of the table. -/
def gateAt (m : Mem) (p : Ptr) (vector : ℕ) : Option Gate :=
  let e := p.base + 8 * vector
  let attr := (m.read8 (e + 5)).toNat
  if 8 * vector + 7 ≤ p.limit then
    some ⟨m.read16 e + 65536 * m.read16 (e + 6), m.read16 (e + 2), attr / 128 = 1, attr / 32 % 4,
      attr % 32⟩
  else none

/-- The type of a 32-bit interrupt gate. -/
def interruptGate : ℕ := 0xE

/-! ## What the loop leaves -/

section

variable {isrTable : ℕ → ISRDescriptor} {entries : ℕ} {m : Mem}

/-- The bytes of a descriptor. -/
def entryByte (handler : ℕ) : ℕ → UInt8
  | 0 => Mem.byteOf handler 0
  | 1 => Mem.byteOf handler 1
  | 2 => 0x08
  | 3 => 0
  | 4 => 0
  | 5 => gateFlags
  | 6 => Mem.byteOf handler 2
  | _ => Mem.byteOf handler 3

theorem byteOf_low (v : ℕ) {k : ℕ} (hk : k < 2) : Mem.byteOf (v % 65536) k = Mem.byteOf v k := by
  apply UInt8.toNat_inj.1
  rw [Mem.toNat_byteOf, Mem.toNat_byteOf]
  interval_cases k <;> omega

theorem byteOf_high (v k : ℕ) : Mem.byteOf (v / 65536) k = Mem.byteOf v (k + 2) := by
  apply UInt8.toNat_inj.1
  rw [Mem.toNat_byteOf, Mem.toNat_byteOf, Nat.div_div_eq_div_mul, Nat.pow_add, Nat.mul_comm]

/-- One turn of the loop writes the eight bytes of its descriptor. -/
theorem read8_setEntry (m : Mem) (entries i handler x : ℕ) :
    (setEntry (m.write8 (entries + 8 * i + 4) 0) entries i handler gateFlags 0x08).read8 x =
      if Word32.sub x (entries + 8 * i) < 8 then
        entryByte handler (Word32.sub x (entries + 8 * i))
      else m.read8 x := by
  obtain ⟨e, he⟩ : ∃ e, e = entries + 8 * i := ⟨_, rfl⟩
  unfold setEntry setOffset
  rw [← he]
  dsimp only
  simp only [Mem.read8_write8, Mem.read8_writeBytes _ _ _ _ 2 (by norm_num)]
  obtain ⟨d, hd⟩ : ∃ d, d = Word32.sub x e := ⟨_, rfl⟩
  have h2 : Word32.sub x (e + 2) = (d + 4294967294) % 4294967296 := by
    unfold Word32.sub at *; omega
  have h4 : Word32.sub x (e + 4) = (d + 4294967292) % 4294967296 := by
    unfold Word32.sub at *; omega
  have h5 : Word32.sub x (e + 5) = (d + 4294967291) % 4294967296 := by
    unfold Word32.sub at *; omega
  have h6 : Word32.sub x (e + 6) = (d + 4294967290) % 4294967296 := by
    unfold Word32.sub at *; omega
  have hlt : d < 4294967296 := by rw [hd]; unfold Word32.sub; omega
  rw [h2, h4, h5, h6, ← hd]
  by_cases h8 : d < 8
  · rw [if_pos h8]
    interval_cases d
    all_goals simp [entryByte, byteOf_low, byteOf_high]
    all_goals rfl
  · rw [if_neg h8, if_neg (by omega), if_neg (by omega), if_neg (by omega), if_neg (by omega),
      if_neg (by omega)]

/-- The turns made so far: the descriptors below `i` stand in the table, and the rest of memory is
as before. -/
theorem read8_initLoop (x : ℕ) : ∀ i ≤ 256,
    (initLoop isrTable entries m i).read8 x =
      if Word32.sub x entries < 8 * i then
        entryByte (isrTable (Word32.sub x entries / 8)).entry.toNat (Word32.sub x entries % 8)
      else m.read8 x := by
  intro i
  induction i with
  | zero => intro _; rfl
  | succ i ih =>
    intro hi
    rw [initLoop, read8_setEntry, ih (by omega)]
    obtain ⟨d, hd⟩ : ∃ d, d = Word32.sub x entries := ⟨_, rfl⟩
    have hlt : d < 4294967296 := by rw [hd]; unfold Word32.sub; omega
    have hsub : Word32.sub x (entries + 8 * i) = (d + 4294967296 - 8 * i) % 4294967296 := by
      unfold Word32.sub at *; omega
    rw [hsub, ← hd]
    by_cases hlow : d < 8 * i
    · rw [if_neg (by omega), if_pos hlow, if_pos (by omega)]
    by_cases hthis : d < 8 * (i + 1)
    · rw [if_pos (by omega), if_pos hthis, show d / 8 = i by omega]
      congr 1
      omega
    · rw [if_neg (by omega), if_neg hlow, if_neg hthis]

/-- Byte `k` of the descriptor of a vector. -/
theorem read8_init {v k : ℕ} (hv : v < 256) (hk : k < 8) :
    (init isrTable entries m).read8 (entries + 8 * v + k) =
      entryByte (isrTable v).entry.toNat k := by
  have hsub : Word32.sub (entries + 8 * v + k) entries = 8 * v + k := by
    unfold Word32.sub; omega
  unfold init
  rw [read8_initLoop _ 256 le_rfl, hsub, if_pos (by omega), show (8 * v + k) / 8 = v by omega,
    show (8 * v + k) % 8 = k by omega]

theorem toNat_gateFlags : gateFlags.toNat = 142 := rfl

/-- **The table.** After `idt::init` the processor finds, for every vector, a present ring 0
interrupt gate to the kernel's code segment at the address of the vector's wrapper; the limit ends
the table after vector 255, and the bytes around the table keep their values. -/
theorem idt_init (wrapper : ℕ → UInt32) (entries : ℕ) (m : Mem) :
    (∀ v < 256, gateAt (init (getIsrWrapper wrapper) entries m) (ptr entries) v =
      some ⟨(wrapper v).toNat, 0x08, true, 0, interruptGate⟩) ∧
    (∀ v, 256 ≤ v → gateAt (init (getIsrWrapper wrapper) entries m) (ptr entries) v = none) ∧
    ∀ x, 2048 ≤ Word32.sub x entries →
      (init (getIsrWrapper wrapper) entries m).read8 x = m.read8 x := by
  refine ⟨fun v hv => ?_, fun v hv => ?_, fun x hx => ?_⟩
  · obtain ⟨M, hM⟩ : ∃ M, M = init (getIsrWrapper wrapper) entries m := ⟨_, rfl⟩
    have hb : ∀ k < 8, M.read8 (entries + 8 * v + k) = entryByte (wrapper v).toNat k :=
      fun k hk => by rw [hM]; exact read8_init hv hk
    have h0 := hb 0 (by norm_num)
    rw [Nat.add_zero] at h0
    have hw := (wrapper v).toNat_lt
    rw [← hM]
    unfold gateAt ptr
    dsimp only
    rw [if_pos (by omega)]
    unfold Mem.read16
    rw [h0, hb 1 (by norm_num), hb 2 (by norm_num), hb (2 + 1) (by norm_num), hb 5 (by norm_num),
      hb 6 (by norm_num), hb (6 + 1) (by norm_num)]
    simp only [entryByte, Mem.toNat_byteOf, toNat_gateFlags]
    have hoff : (wrapper v).toNat / 256 ^ 0 % 256 + 256 * ((wrapper v).toNat / 256 ^ 1 % 256) +
        65536 * ((wrapper v).toNat / 256 ^ 2 % 256 + 256 * ((wrapper v).toNat / 256 ^ 3 % 256)) =
        (wrapper v).toNat := by omega
    rw [hoff]
    rfl
  · unfold gateAt ptr
    dsimp only
    rw [if_neg (by omega)]
  · unfold init
    rw [read8_initLoop _ 256 le_rfl, if_neg (by omega)]

end

end Idt

end Ospp
