import Ospp.Lib.ShiftRegister
import Mathlib.Tactic

/-!
# CRC-32

`crc32.hpp`: the checksum of a sequence of bytes, with a table of 256 words that takes eight bits at
a time. `serial` is the checksum as it is defined, bit by bit; `crcCalc_eq_serial` says that the two
agree, and that a checksum can be taken up where another one has ended.
-/

namespace Ospp

namespace Crc32

def polynomial : UInt32 := 0xEDB88320

/-- The body of the inner loop. -/
def tableBit (c : UInt32) : UInt32 := if c &&& 1 ≠ 0 then polynomial ^^^ (c >>> 1) else c >>> 1

/-- The inner loop. -/
def tableBits : ℕ → UInt32 → UInt32
  | 0, c => c
  | n + 1, c => tableBits n (tableBit c)

def generateCrc32Table : Vector UInt32 256 := Vector.ofFn fun i => tableBits 8 (.ofNat i.val)

def crc32Table : Vector UInt32 256 := generateCrc32Table

/-- The body of the loop of `calc`, for the byte `u`. -/
def crcByte (c : UInt32) (u : UInt8) : UInt32 :=
  crc32Table[((c ^^^ u.toUInt32) &&& 0xFF).toNat]! ^^^ (c >>> 8)

/-- `calc`. -/
def crcCalc (buf : List UInt8) (initial : UInt32) : UInt32 :=
  buf.foldl crcByte (initial ^^^ 0xFFFFFFFF) ^^^ 0xFFFFFFFF

/-! ## Bit by bit -/

/-- One bit of the message: it is added to the lowest bit of the register, the register is shifted,
and when the sum was 1 the polynomial is added. -/
def serialBit (c : UInt32) (b : Bool) : UInt32 :=
  (c >>> 1) ^^^ (if (c &&& 1 = 1) ≠ (b = true) then polynomial else 0)

/-- The bits of the bytes, the lowest bit of a byte first. -/
def messageBits (buf : List UInt8) : List Bool :=
  buf.flatMap fun u => (List.range 8).map u.toNat.testBit

/-- The reflected checksum, with the complement at both ends. -/
def serial (buf : List UInt8) (initial : UInt32) : UInt32 :=
  (messageBits buf).foldl serialBit (initial ^^^ 0xFFFFFFFF) ^^^ 0xFFFFFFFF

/-! ## The register -/

open ShiftRegister

theorem and_one_toNat (c : UInt32) : (c &&& 1).toNat = c.toNat % 2 := by
  rw [UInt32.toNat_and]
  exact Nat.and_one_is_mod _

theorem getLsbD_zero_eq (c : UInt32) : c.toBitVec.getLsbD 0 = decide (c &&& 1 = 1) := by
  have hone : c &&& 1 = 1 ↔ c.toNat % 2 = 1 := by
    rw [← UInt32.toNat_inj, and_one_toNat, UInt32.toNat_one]
  rw [decide_eq_decide.2 hone]
  exact Nat.testBit_zero _

theorem tableBit_toBitVec (c : UInt32) :
    (tableBit c).toBitVec = clock polynomial.toBitVec c.toBitVec := by
  have hne : c &&& 1 ≠ 0 ↔ c &&& 1 = 1 := by
    rw [Ne, ← UInt32.toNat_inj, ← UInt32.toNat_inj, and_one_toNat, UInt32.toNat_one,
      UInt32.toNat_zero]
    omega
  unfold tableBit clock
  rw [getLsbD_zero_eq]
  by_cases h : c &&& 1 = 1
  · rw [if_pos (hne.2 h), if_pos (decide_eq_true h)]
    rfl
  · rw [if_neg (mt hne.1 h), if_neg (by rwa [decide_eq_true_eq])]
    rfl

theorem tableBits_toBitVec : ∀ (n : ℕ) (c : UInt32),
    (tableBits n c).toBitVec = clocks polynomial.toBitVec n c.toBitVec := by
  intro n
  induction n with
  | zero => exact fun c => rfl
  | succ n ih =>
    intro c
    rw [tableBits, ih, tableBit_toBitVec]
    rfl

/-- A bit of the message is fed into the register. -/
theorem serialBit_toBitVec (c : UInt32) (b : Bool) :
    (serialBit c b).toBitVec = feed polynomial.toBitVec c.toBitVec b := by
  have hshift : (c.toBitVec ^^^ low 32 b) >>> 1 = (c >>> 1).toBitVec := by
    rw [BitVec.ushiftRight_xor_distrib, show low 32 b >>> 1 = 0 by cases b <;> rfl]
    exact BitVec.xor_zero
  have hbit : (c.toBitVec ^^^ low 32 b).getLsbD 0 = decide ((c &&& 1 = 1) ≠ (b = true)) := by
    rw [BitVec.getLsbD_xor, getLsbD_low, getLsbD_zero_eq]
    by_cases h : c &&& 1 = 1 <;> cases b <;> simp [h]
  unfold serialBit feed clock
  rw [hbit, hshift]
  by_cases h : (c &&& 1 = 1) ≠ (b = true)
  · rw [if_pos h, if_pos (decide_eq_true h)]
    exact BitVec.xor_comm _ _
  · rw [if_neg h, if_neg (by rwa [decide_eq_true_eq])]
    exact BitVec.xor_zero

theorem foldl_toBitVec : ∀ {bits : List Bool} {c : UInt32}, (bits.foldl serialBit c).toBitVec =
    bits.foldl (feed polynomial.toBitVec) c.toBitVec := by
  intro bits
  induction bits with
  | nil => exact fun {c} => rfl
  | cons b bits ih =>
    intro c
    rw [List.foldl_cons, ih, serialBit_toBitVec]
    rfl

theorem crc32Table_eq {i : ℕ} (hi : i < 256) : crc32Table[i]! = tableBits 8 (.ofNat i) := by
  rw [getElem!_pos crc32Table i hi, crc32Table, generateCrc32Table, Vector.getElem_ofFn]

/-- **One byte.** A lookup does what the eight bits of the byte do one by one. -/
theorem crcByte_eq (c : UInt32) (u : UInt8) :
    crcByte c u = ((List.range 8).map u.toNat.testBit).foldl serialBit c := by
  have hindex : ((c ^^^ u.toUInt32) &&& 0xFF).toNat = (c ^^^ u.toUInt32).toNat % 256 := by
    rw [UInt32.toNat_and]
    exact Nat.and_two_pow_sub_one_eq_mod _ 8
  have hbits : (List.range 8).map u.toNat.testBit =
      (List.range 8).map u.toUInt32.toBitVec.getLsbD :=
    List.map_congr_left fun i _ => by
      show _ = u.toUInt32.toNat.testBit i
      rw [UInt8.toNat_toUInt32]
  have hhigh : ∀ i, 8 ≤ i → u.toUInt32.toBitVec.getLsbD i = false := by
    intro i hi
    show u.toUInt32.toNat.testBit i = false
    rw [UInt8.toNat_toUInt32]
    exact Nat.testBit_lt_two_pow (lt_of_lt_of_le u.toNat_lt (Nat.pow_le_pow_right (by norm_num) hi))
  have hlow : ∀ i, (UInt32.ofNat ((c ^^^ u.toUInt32).toNat % 256)).toBitVec.getLsbD i =
      (decide (i < 8) && (c ^^^ u.toUInt32).toBitVec.getLsbD i) := by
    intro i
    show (UInt32.ofNat ((c ^^^ u.toUInt32).toNat % 256)).toNat.testBit i = _
    rw [UInt32.toNat_ofNat_of_lt' (lt_trans (Nat.mod_lt _ (by norm_num)) (by decide)),
      show 256 = 2 ^ 8 from rfl, Nat.testBit_mod_two_pow]
    rfl
  have hshift : ((c ^^^ u.toUInt32) >>> 8) = c >>> 8 := by
    have hzero : u.toUInt32.toNat / 2 ^ 8 = 0 := by
      rw [UInt8.toNat_toUInt32]
      exact Nat.div_eq_of_lt u.toNat_lt
    apply UInt32.toNat_inj.1
    rw [UInt32.toNat_shiftRight, UInt32.toNat_shiftRight, UInt32.toNat_xor]
    show (c.toNat ^^^ u.toUInt32.toNat) >>> 8 = c.toNat >>> 8
    rw [Nat.shiftRight_xor_distrib, Nat.shiftRight_eq_div_pow u.toUInt32.toNat, hzero, Nat.xor_zero]
  apply UInt32.toBitVec_inj.1
  rw [foldl_toBitVec, hbits, foldl_feed _ hhigh, crcByte, hindex,
    crc32Table_eq (Nat.mod_lt _ (by norm_num)), UInt32.toBitVec_xor, tableBits_toBitVec, ← hshift]
  exact (clocks_eq polynomial.toBitVec (x := (c ^^^ u.toUInt32).toBitVec) hlow).symm

/-- The checksum is the one computed bit by bit, and goes on where another one has ended. -/
theorem crcCalc_eq_serial (a b : List UInt8) (initial : UInt32) :
    crcCalc a initial = serial a initial ∧
      crcCalc (a ++ b) initial = crcCalc b (crcCalc a initial) := by
  constructor
  · have hbytes : ∀ (a : List UInt8) (c : UInt32),
        a.foldl crcByte c = (messageBits a).foldl serialBit c := by
      intro a
      induction a with
      | nil => exact fun c => rfl
      | cons u a ih =>
        intro c
        rw [List.foldl_cons, ih, crcByte_eq, messageBits, messageBits, List.flatMap_cons,
          List.foldl_append]
    rw [crcCalc, hbytes, serial]
  · unfold crcCalc
    rw [List.foldl_append, UInt32.xor_assoc, UInt32.xor_self, UInt32.xor_zero]

end Crc32

end Ospp
