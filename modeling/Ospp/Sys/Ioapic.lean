import Ospp.Sys.Madt

/-!
# Interrupt routing

`apic::configure` from `sys/apic.hpp`: it masks the redirection entries of all I/O APICs, routes the
interrupts the overrides of the MADT name, and then the other legacy interrupts to the global
interrupts (GSIs) of the same number.

The registers of an I/O APIC are behind a window of two words, a register number and a value; the
windows of different I/O APICs are apart. `configureIoapic_spec` is what the first loop does for one
I/O APIC: it reaches all GSIs but the last, `Below`.
-/

namespace Ospp

open Madt

/-- The registers of the I/O APICs, by the address of their window. A window selects one of 256
registers. -/
abbrev IoapicRegs := UInt32 → UInt8 → UInt32

namespace IoapicRegs

def read (d : IoapicRegs) (base reg : UInt32) : UInt32 := d base reg.toUInt8

def write (d : IoapicRegs) (base reg value : UInt32) : IoapicRegs :=
  fun b r => if b = base ∧ r = reg.toUInt8 then value else d b r

end IoapicRegs

/-- The state of `configure`: the registers, `legacy_mapped_irqs`, which is followed by the rest of
the stack frame, and the indices it has been accessed with. -/
structure Routing where
  regs : IoapicRegs
  legacyMappedIrqs : ℕ → Bool
  indices : List ℕ

namespace Apic

/-! ## The source -/

def redirectTableBadRead : UInt64 := 0xFFFFFFFFFFFFFFFF

def getGsiMax (d : IoapicRegs) (ioapic : Ent1) : UInt8 :=
  let data := d.read ioapic.ioapic 1
  let gsiMax := ((data >>> 16) &&& 0xFF).toUInt8
  gsiMax &&& ~~~((1 : UInt8) <<< 7)

/-- `get_gsi_max(&ioapic) + ioapic.gsi_base`. -/
def gsiEnd (d : IoapicRegs) (ioapic : Ent1) : UInt32 :=
  (getGsiMax d ioapic).toUInt32 + ioapic.gsiBase

def findValidIoapic (d : IoapicRegs) (ioapics : List Ent1) (gsi : UInt32) : Option Ent1 :=
  ioapics.find? fun ioapic => ioapic.gsiBase ≤ gsi ∧ gsi ≤ gsiEnd d ioapic

def writeRedirectionTable (d : IoapicRegs) (ioapic : Option Ent1) (gsi : UInt32) (data : UInt64) :
    IoapicRegs × Bool :=
  match ioapic with
  | none => (d, false)
  | some ioapic =>
    let reg := (gsi - ioapic.gsiBase) * 2 + 16
    let d := d.write ioapic.ioapic reg (data &&& 0xFFFFFFFF).toUInt32
    (d.write ioapic.ioapic (reg + 1) (data >>> 32).toUInt32, true)

def readRedirectionTable (d : IoapicRegs) (ioapic : Option Ent1) (gsi : UInt32) : UInt64 :=
  match ioapic with
  | none => redirectTableBadRead
  | some ioapic =>
    let reg := (gsi - ioapic.gsiBase) * 2 + 16
    let data := (d.read ioapic.ioapic reg).toUInt64
    data ||| (d.read ioapic.ioapic (reg + 1)).toUInt64 <<< 32

def maskGsi (d : IoapicRegs) (ioapic : Option Ent1) (gsi : UInt32) : IoapicRegs × Bool :=
  let currentData := readRedirectionTable d ioapic gsi
  if currentData = redirectTableBadRead then (d, false)
  else writeRedirectionTable d ioapic gsi (currentData ||| (1 : UInt64) <<< 16)

/-- The entry `redirect_gsi` writes. -/
def redirection (irq : UInt8) (flags : UInt16) (apic : UInt8) : UInt64 :=
  let redirect := irq.toUInt64 + 32
  let redirect := if flags &&& (1 : UInt16) <<< 1 ≠ 0 then redirect ||| (1 : UInt64) <<< 13
    else redirect
  let redirect := if flags &&& (1 : UInt16) <<< 3 ≠ 0 then redirect ||| (1 : UInt64) <<< 15
    else redirect
  redirect ||| apic.toUInt64 <<< 56

def redirectGsi (d : IoapicRegs) (ioapic : Option Ent1) (irq : UInt8) (gsi : UInt32)
    (flags : UInt16) (apic : UInt8) : IoapicRegs × Bool :=
  writeRedirectionTable d ioapic gsi (redirection irq flags apic)

/-- `for (gsi = ioapic.gsi_base; gsi < gsi_max; gsi++)`, for the rounds that are left. -/
def maskFrom (ioapic : Ent1) : ℕ → UInt32 → IoapicRegs → IoapicRegs
  | 0, _, d => d
  | n + 1, gsi, d => maskFrom ioapic n (gsi + 1) (maskGsi d (some ioapic) gsi).1

section

variable (lapicId : UInt8)

/-- An override, for one I/O APIC. -/
def routeOverride (ioapic : Ent1) (gsiMax : UInt32) (s : Routing) (irq : Ent2) : Routing :=
  if ioapic.gsiBase ≤ irq.gsi ∧ irq.gsi < gsiMax then
    let gsi := irq.gsi.toNat
    let s := { s with indices := s.indices ++ [gsi] }
    if s.legacyMappedIrqs gsi then s
    else
      let s := { s with
        regs := (redirectGsi s.regs (some ioapic) irq.irqSrc irq.gsi irq.flags lapicId).1 }
      if irq.gsi < 16 then
        { s with
          legacyMappedIrqs := Function.update s.legacyMappedIrqs gsi true
          indices := s.indices ++ [gsi] }
      else s
  else s

def configureIoapic (irqOverrides : List Ent2) (s : Routing) (ioapic : Ent1) : Routing :=
  let gsiMax := gsiEnd s.regs ioapic
  let rounds := gsiMax.toNat - ioapic.gsiBase.toNat
  irqOverrides.foldl (routeOverride lapicId ioapic gsiMax)
    { s with regs := maskFrom ioapic rounds ioapic.gsiBase s.regs }

/-- The last loop, for the legacy interrupt `i`. -/
def remap (ioapics : List Ent1) (s : Routing) (i : ℕ) : Routing :=
  let s := { s with indices := s.indices ++ [i] }
  if s.legacyMappedIrqs i then s
  else
    let ioapic := findValidIoapic s.regs ioapics (.ofNat i)
    { s with regs := (redirectGsi s.regs ioapic (.ofNat i) (.ofNat i) 0 lapicId).1 }

/-- `configure`, with the local APIC's `id`; `frame` is what follows the array on the stack. -/
def configure (frame : ℕ → Bool) (d : IoapicRegs) (s : Apic) : Routing :=
  let routing := s.ioapics.items.foldl (configureIoapic lapicId s.irqOverrides.items)
    ⟨d, fun i => if i < 16 then false else frame i, []⟩
  (List.range 16).foldl (remap lapicId s.ioapics.items) routing

end

/-! ## Redirection entries -/

/-- The entry with index `k` in the table of an I/O APIC. -/
def tableEntry (d : IoapicRegs) (ioapic : Ent1) (k : ℕ) : UInt64 :=
  (d ioapic.ioapic (.ofNat (16 + 2 * k))).toUInt64 |||
    (d ioapic.ioapic (.ofNat (17 + 2 * k))).toUInt64 <<< 32

/-- The interrupt of the entry is masked. -/
def Masked (e : UInt64) : Prop := e.toNat.testBit 16 = true

/-- The entry sends a vector to a processor. -/
structure Routed (e : UInt64) (vector : ℕ) (flags : UInt16) (lapicId : UInt8) : Prop where
  unmasked : ¬ Masked e
  vector : e.toNat % 256 = vector
  polarity : e.toNat.testBit 13 = flags.toNat.testBit 1
  trigger : e.toNat.testBit 15 = flags.toNat.testBit 3
  destination : e.toNat / 2 ^ 56 = lapicId.toNat

theorem or_halves (data : UInt64) :
    (data &&& 0xFFFFFFFF).toUInt32.toUInt64 ||| (data >>> 32).toUInt32.toUInt64 <<< 32 = data := by
  apply UInt64.toNat_inj.1
  have hlo : (data &&& 0xFFFFFFFF).toUInt32.toUInt64.toNat = data.toNat % 2 ^ 32 := by
    rw [UInt32.toNat_toUInt64, UInt64.toNat_toUInt32, UInt64.toNat_and,
      show (0xFFFFFFFF : UInt64).toNat = 2 ^ 32 - 1 from rfl, Nat.and_two_pow_sub_one_eq_mod,
      Nat.mod_mod]
  have hhi : ((data >>> 32).toUInt32.toUInt64 <<< 32).toNat = (data.toNat / 2 ^ 32) <<< 32 := by
    have := data.toNat_lt
    rw [UInt64.toNat_shiftLeft, UInt32.toNat_toUInt64, UInt64.toNat_toUInt32,
      UInt64.toNat_shiftRight, show (32 : UInt64).toNat % 64 = 32 from rfl, Nat.shiftRight_eq_div_pow,
      Nat.shiftLeft_eq, Nat.shiftLeft_eq]
    omega
  rw [UInt64.toNat_or, hlo, hhi, Nat.or_comm, ← Nat.shiftLeft_add_eq_or_of_lt (Nat.mod_lt _ (by decide)),
    Nat.shiftLeft_eq, Nat.mul_comm]
  exact Nat.div_add_mod _ _

theorem masked_or (e : UInt64) : Masked (e ||| (1 : UInt64) <<< 16) := by
  rw [Masked, UInt64.toNat_or, Nat.testBit_or, show ((1 : UInt64) <<< 16).toNat = 2 ^ 16 from rfl,
    Nat.testBit_two_pow_self, Bool.or_true]

theorem flag_ne_zero (flags : UInt16) {f : UInt16} {i : ℕ} (hf : f.toNat = 2 ^ i) :
    flags &&& f ≠ 0 ↔ flags.toNat.testBit i = true := by
  rw [Ne, ← UInt16.toNat_inj, UInt16.toNat_and, hf, Nat.and_two_pow]
  cases flags.toNat.testBit i <;> simp

/-- A bit above a number is added to it. -/
theorem or_toNat {r b : UInt64} {n c : ℕ} (hr : r.toNat < 2 ^ n) (hb : b.toNat = c <<< n) :
    (r ||| b).toNat = r.toNat + 2 ^ n * c := by
  rw [UInt64.toNat_or, hb, Nat.or_comm, ← Nat.shiftLeft_add_eq_or_of_lt hr, Nat.shiftLeft_eq,
    Nat.mul_comm, Nat.add_comm]

theorem or_flag (flags : UInt16) {f : UInt16} {b r : UInt64} {i n : ℕ} (hf : f.toNat = 2 ^ i)
    (hb : b.toNat = 1 <<< n) (hr : r.toNat < 2 ^ n) :
    (if flags &&& f ≠ 0 then r ||| b else r).toNat =
      r.toNat + if flags.toNat.testBit i then 2 ^ n else 0 := by
  simp only [flag_ne_zero flags hf]
  split_ifs
  · rw [or_toNat hr hb, Nat.mul_one]
  · rfl

/-- A redirection as a number. -/
theorem redirection_toNat {irq : UInt8} (hirq : irq.toNat < 16) (flags : UInt16) (apic : UInt8) :
    (redirection irq flags apic).toNat =
      32 + irq.toNat + (if flags.toNat.testBit 1 then 2 ^ 13 else 0) +
        (if flags.toNat.testBit 3 then 2 ^ 15 else 0) + 2 ^ 56 * apic.toNat := by
  have hapic := apic.toNat_lt
  have hvector : (irq.toUInt64 + 32).toNat = 32 + irq.toNat := by
    rw [UInt64.toNat_add, UInt8.toNat_toUInt64, show (32 : UInt64).toNat = 32 from rfl]
    omega
  have hdest : (apic.toUInt64 <<< 56).toNat = apic.toNat <<< 56 := by
    rw [UInt64.toNat_shiftLeft, UInt8.toNat_toUInt64, show (56 : UInt64).toNat % 64 = 56 from rfl,
      Nat.shiftLeft_eq]
    omega
  have hpol := or_flag flags (f := (1 : UInt16) <<< 1) (b := (1 : UInt64) <<< 13) (i := 1) rfl rfl
    (show (irq.toUInt64 + 32).toNat < 2 ^ 13 by omega)
  have htrig := or_flag flags (f := (1 : UInt16) <<< 3) (b := (1 : UInt64) <<< 15) (i := 3) rfl rfl
    (show _ < 2 ^ 15 by rw [hpol]; split_ifs <;> omega)
  rw [redirection, or_toNat (n := 56) (by rw [htrig, hpol]; split_ifs <;> omega) hdest, htrig, hpol,
    hvector]

theorem redirection_routed {irq : UInt8} (hirq : irq.toNat < 16) (flags : UInt16) (apic : UInt8) :
    Routed (redirection irq flags apic) (32 + irq.toNat) flags apic := by
  have h := redirection_toNat hirq flags apic
  have hapic := apic.toNat_lt
  constructor
  · rw [Masked, h, Nat.testBit_eq_decide_div_mod_eq]
    split_ifs <;> simp <;> omega
  · rw [h]
    split_ifs <;> omega
  · rw [h, Nat.testBit_eq_decide_div_mod_eq]
    split_ifs <;> simp [*] <;> omega
  · rw [h, Nat.testBit_eq_decide_div_mod_eq]
    split_ifs <;> simp [*] <;> omega
  · rw [h]
    split_ifs <;> omega

/-! ## Reading and writing the table -/

/-- The highest index in the table of an I/O APIC. -/
def lastIndex (d : IoapicRegs) (ioapic : Ent1) : ℕ := (d ioapic.ioapic 1).toNat / 2 ^ 16 % 256

/-- The index of a GSI selects two registers. -/
theorem reg_toUInt8 {ioapic : Ent1} {gsi : UInt32} {k : ℕ}
    (h : ioapic.gsiBase.toNat + k = gsi.toNat) (j : ℕ) :
    ((gsi - ioapic.gsiBase) * 2 + UInt32.ofNat j).toUInt8 = UInt8.ofNat (j + 2 * k) := by
  have hgsi := gsi.toNat_lt
  apply UInt8.toNat_inj.1
  rw [UInt32.toNat_toUInt8, UInt32.toNat_add, UInt32.toNat_mul, UInt32.toNat_sub, UInt32.toNat_ofNat',
    UInt8.toNat_ofNat', show (2 : UInt32).toNat = 2 from rfl]
  omega

variable {d : IoapicRegs} {ioapic ioapic' : Ent1} {gsi : UInt32} {k k' : ℕ}

theorem writeRedirectionTable_eq (h : ioapic.gsiBase.toNat + k = gsi.toNat) (data : UInt64) :
    (writeRedirectionTable d (some ioapic) gsi data).1 = fun b r =>
      if b = ioapic.ioapic ∧ r = .ofNat (17 + 2 * k) then (data >>> 32).toUInt32
      else if b = ioapic.ioapic ∧ r = .ofNat (16 + 2 * k) then (data &&& 0xFFFFFFFF).toUInt32
      else d b r := by
  have h16 := reg_toUInt8 h 16
  have h17 := reg_toUInt8 h 17
  rw [show UInt32.ofNat 17 = 16 + 1 from rfl, ← UInt32.add_assoc] at h17
  rw [show UInt32.ofNat 16 = 16 from rfl] at h16
  unfold writeRedirectionTable IoapicRegs.write
  dsimp only
  rw [h16, h17]

theorem readRedirectionTable_eq (h : ioapic.gsiBase.toNat + k = gsi.toNat) :
    readRedirectionTable d (some ioapic) gsi = tableEntry d ioapic k := by
  have h16 := reg_toUInt8 h 16
  have h17 := reg_toUInt8 h 17
  rw [show UInt32.ofNat 17 = 16 + 1 from rfl, ← UInt32.add_assoc] at h17
  rw [show UInt32.ofNat 16 = 16 from rfl] at h16
  unfold readRedirectionTable IoapicRegs.read tableEntry
  dsimp only
  rw [h16, h17]

theorem ofNat_reg_ne {i j : ℕ} (hi : i < 256) (hj : j < 256) (h : i ≠ j) :
    UInt8.ofNat i ≠ UInt8.ofNat j := by
  intro heq
  have := congrArg UInt8.toNat heq
  rw [UInt8.toNat_ofNat', UInt8.toNat_ofNat'] at this
  omega

/-- Writing an entry changes that entry. -/
theorem tableEntry_write (h : ioapic.gsiBase.toNat + k = gsi.toNat) (hk : k < 120) (hk' : k' < 120)
    (data : UInt64) :
    tableEntry (writeRedirectionTable d (some ioapic) gsi data).1 ioapic' k' =
      if ioapic'.ioapic = ioapic.ioapic ∧ k' = k then data else tableEntry d ioapic' k' := by
  rw [writeRedirectionTable_eq h, tableEntry, tableEntry]
  by_cases hwin : ioapic'.ioapic = ioapic.ioapic
  · by_cases hidx : k' = k
    · subst hidx
      have hne := ofNat_reg_ne (i := 16 + 2 * k') (j := 17 + 2 * k') (by omega) (by omega) (by omega)
      rw [if_neg fun h => hne h.2, if_pos ⟨hwin, rfl⟩, if_pos ⟨hwin, rfl⟩, if_pos ⟨hwin, rfl⟩]
      exact or_halves data
    · have h1 := ofNat_reg_ne (i := 16 + 2 * k') (j := 17 + 2 * k) (by omega) (by omega) (by omega)
      have h2 := ofNat_reg_ne (i := 16 + 2 * k') (j := 16 + 2 * k) (by omega) (by omega) (by omega)
      have h3 := ofNat_reg_ne (i := 17 + 2 * k') (j := 17 + 2 * k) (by omega) (by omega) (by omega)
      have h4 := ofNat_reg_ne (i := 17 + 2 * k') (j := 16 + 2 * k) (by omega) (by omega) (by omega)
      rw [if_neg fun h => h1 h.2, if_neg fun h => h2 h.2, if_neg fun h => h3 h.2,
        if_neg fun h => h4 h.2, if_neg fun h => hidx h.2]
  · rw [if_neg fun h => hwin h.1, if_neg fun h => hwin h.1, if_neg fun h => hwin h.1,
      if_neg fun h => hwin h.1, if_neg fun h => hwin h.1]

/-- The version register is not part of the table. -/
theorem write_version (h : ioapic.gsiBase.toNat + k = gsi.toNat) (hk : k < 120) (data : UInt64)
    (b : UInt32) : (writeRedirectionTable d (some ioapic) gsi data).1 b 1 = d b 1 := by
  have h1 := ofNat_reg_ne (i := 1) (j := 17 + 2 * k) (by omega) (by omega) (by omega)
  have h2 := ofNat_reg_ne (i := 1) (j := 16 + 2 * k) (by omega) (by omega) (by omega)
  rw [writeRedirectionTable_eq h]
  dsimp only
  rw [if_neg fun h => h1 h.2, if_neg fun h => h2 h.2]

/-- `mask_gsi` masks its entry, also when the entry is all ones. -/
theorem tableEntry_mask (h : ioapic.gsiBase.toNat + k = gsi.toNat) (hk : k < 120) (hk' : k' < 120) :
    tableEntry (maskGsi d (some ioapic) gsi).1 ioapic' k' =
      if ioapic'.ioapic = ioapic.ioapic ∧ k' = k then tableEntry d ioapic k ||| (1 : UInt64) <<< 16
      else tableEntry d ioapic' k' := by
  unfold maskGsi
  dsimp only
  rw [readRedirectionTable_eq h]
  by_cases hbad : tableEntry d ioapic k = redirectTableBadRead
  · rw [if_pos hbad]
    split_ifs with hhere
    · obtain ⟨hwin, rfl⟩ := hhere
      rw [show tableEntry d ioapic' k' = tableEntry d ioapic k' by rw [tableEntry, tableEntry, hwin],
        hbad]
      rfl
    · rfl
  · rw [if_neg hbad, tableEntry_write h hk hk']

theorem mask_version (h : ioapic.gsiBase.toNat + k = gsi.toNat) (hk : k < 120) (b : UInt32) :
    (maskGsi d (some ioapic) gsi).1 b 1 = d b 1 := by
  unfold maskGsi
  dsimp only
  split_ifs
  · rfl
  · exact write_version h hk _ b

/-! ## The last GSI -/

/-- The GSIs of an I/O APIC. -/
def InRange (d : IoapicRegs) (ioapic : Ent1) (g : ℕ) : Prop :=
  ioapic.gsiBase.toNat ≤ g ∧ g ≤ ioapic.gsiBase.toNat + lastIndex d ioapic

/-- The ones `configure` masks, and looks for in the overrides: all but the last. -/
def Below (d : IoapicRegs) (ioapic : Ent1) (g : ℕ) : Prop :=
  ioapic.gsiBase.toNat ≤ g ∧ g < (gsiEnd d ioapic).toNat

instance (d : IoapicRegs) (ioapic : Ent1) (g : ℕ) : Decidable (Below d ioapic g) :=
  inferInstanceAs (Decidable (_ ∧ _))

theorem getGsiMax_toNat (h : lastIndex d ioapic < 120) :
    (getGsiMax d ioapic).toNat = lastIndex d ioapic := by
  unfold lastIndex at h ⊢
  unfold getGsiMax IoapicRegs.read
  dsimp only
  rw [show ~~~((1 : UInt8) <<< 7) = 127 from rfl, show (1 : UInt32).toUInt8 = 1 from rfl,
    UInt8.toNat_and, UInt32.toNat_toUInt8, UInt32.toNat_and, UInt32.toNat_shiftRight,
    show (127 : UInt8).toNat = 2 ^ 7 - 1 from rfl, show (255 : UInt32).toNat = 2 ^ 8 - 1 from rfl,
    show (16 : UInt32).toNat % 32 = 16 from rfl, Nat.and_two_pow_sub_one_eq_mod,
    Nat.and_two_pow_sub_one_eq_mod, Nat.shiftRight_eq_div_pow]
  omega

/-- `gsi_max` is the last GSI, unless the sum wraps. -/
theorem gsiEnd_toNat (h : lastIndex d ioapic < 120) :
    (gsiEnd d ioapic).toNat = (ioapic.gsiBase.toNat + lastIndex d ioapic) % 4294967296 := by
  rw [gsiEnd, UInt32.toNat_add, UInt8.toNat_toUInt32, getGsiMax_toNat h, Nat.add_comm]

theorem Below.inRange {g : ℕ} (h : Below d ioapic g) (hlast : lastIndex d ioapic < 120) :
    InRange d ioapic g := by
  have hend := gsiEnd_toNat hlast
  have := h.2
  refine ⟨h.1, ?_⟩
  omega

theorem gsiEnd_congr {d' : IoapicRegs} (h : ∀ b, d' b 1 = d b 1) (ioapic : Ent1) :
    gsiEnd d' ioapic = gsiEnd d ioapic := by
  unfold gsiEnd getGsiMax IoapicRegs.read
  rw [show (1 : UInt32).toUInt8 = 1 from rfl, h]

/-! ## One I/O APIC -/

theorem maskFrom_spec (ioapic : Ent1) : ∀ (n : ℕ) (gsi : UInt32) (k : ℕ) (d : IoapicRegs),
    ioapic.gsiBase.toNat + k = gsi.toNat → k + n < 120 → gsi.toNat + n < 4294967296 →
      (∀ b, maskFrom ioapic n gsi d b 1 = d b 1) ∧
      ∀ ioapic' k', k' < 120 → tableEntry (maskFrom ioapic n gsi d) ioapic' k' =
        if ioapic'.ioapic = ioapic.ioapic ∧ k ≤ k' ∧ k' < k + n then
          tableEntry d ioapic k' ||| (1 : UInt64) <<< 16
        else tableEntry d ioapic' k' := by
  intro n
  induction n with
  | zero =>
    intro gsi k d _ _ _
    refine ⟨fun b => rfl, fun ioapic' k' _ => ?_⟩
    rw [if_neg (by omega)]
    rfl
  | succ n ih =>
    intro gsi k d hgsi hk hlt
    have hnext : (gsi + 1).toNat = gsi.toNat + 1 := by
      rw [UInt32.toNat_add, show (1 : UInt32).toNat = 1 from rfl]
      omega
    obtain ⟨hver, hentry⟩ := ih (gsi + 1) (k + 1) (maskGsi d (some ioapic) gsi).1 (by omega)
      (by omega) (by omega)
    refine ⟨fun b => (hver b).trans (mask_version hgsi (by omega) b), fun ioapic' k' hk' => ?_⟩
    rw [maskFrom, hentry ioapic' k' hk', tableEntry_mask hgsi (by omega) hk',
      tableEntry_mask hgsi (by omega) hk']
    by_cases hwin : ioapic'.ioapic = ioapic.ioapic
    · obtain hlo | rfl | hhi := Nat.lt_trichotomy k' k
      · rw [if_neg (by omega), if_neg (by omega), if_neg (by omega)]
      · rw [if_neg (by omega), if_pos ⟨hwin, rfl⟩, if_pos ⟨hwin, by omega, by omega⟩]
      · by_cases hend : k' < k + (n + 1)
        · rw [if_pos ⟨hwin, by omega, by omega⟩, if_neg (by omega),
            if_pos ⟨hwin, by omega, by omega⟩]
        · rw [if_neg (by omega), if_neg (by omega), if_neg (by omega)]
    · rw [if_neg fun h => hwin h.1, if_neg fun h => hwin h.1, if_neg fun h => hwin h.1]

/-- The override of a GSI. -/
def overrideAt (irqOverrides : List Ent2) (g : ℕ) : Option Ent2 :=
  irqOverrides.find? fun irq => irq.gsi.toNat = g

theorem overrideAt_cons_self {irq : Ent2} {irqs : List Ent2} {g : ℕ} (h : irq.gsi.toNat = g) :
    overrideAt (irq :: irqs) g = some irq := by
  rw [overrideAt, List.find?_cons_of_pos (by simpa using h)]

theorem overrideAt_cons_of_ne {irq : Ent2} {irqs : List Ent2} {g : ℕ} (h : irq.gsi.toNat ≠ g) :
    overrideAt (irq :: irqs) g = overrideAt irqs g := by
  rw [overrideAt, List.find?_cons_of_neg (by simpa using h), overrideAt]

section

variable (lapicId : UInt8)

/-- One override: `configure` looks at it when its GSI is below the last one, and takes the first of
a GSI. -/
theorem routeOverride_spec (hlast : lastIndex d ioapic < 120) {s : Routing}
    (hver : ∀ b, s.regs b 1 = d b 1) (irq : Ent2) :
    (∀ b, (routeOverride lapicId ioapic (gsiEnd d ioapic) s irq).regs b 1 = d b 1) ∧
    (∀ x, x ∈ (routeOverride lapicId ioapic (gsiEnd d ioapic) s irq).indices ↔
      x ∈ s.indices ∨ Below d ioapic irq.gsi.toNat ∧ x = irq.gsi.toNat) ∧
    ((Below d ioapic irq.gsi.toNat → irq.gsi.toNat < 16) →
      (∀ g, (routeOverride lapicId ioapic (gsiEnd d ioapic) s irq).legacyMappedIrqs g =
        (s.legacyMappedIrqs g || decide (Below d ioapic irq.gsi.toNat ∧ g = irq.gsi.toNat))) ∧
      ∀ ioapic' k, k < 120 →
        tableEntry (routeOverride lapicId ioapic (gsiEnd d ioapic) s irq).regs ioapic' k =
          if ioapic'.ioapic = ioapic.ioapic ∧ Below d ioapic irq.gsi.toNat ∧
              ioapic.gsiBase.toNat + k = irq.gsi.toNat ∧ s.legacyMappedIrqs irq.gsi.toNat = false then
            redirection irq.irqSrc irq.flags lapicId
          else tableEntry s.regs ioapic' k) := by
  have hcond : ioapic.gsiBase ≤ irq.gsi ∧ irq.gsi < gsiEnd d ioapic ↔
      Below d ioapic irq.gsi.toNat := by
    rw [UInt32.le_iff_toNat_le, UInt32.lt_iff_toNat_lt, Below]
  unfold routeOverride
  by_cases hbelow : Below d ioapic irq.gsi.toNat
  swap
  · rw [if_neg fun h => hbelow (hcond.1 h)]
    refine ⟨hver, fun x => ?_, fun _ => ⟨fun g => ?_, fun ioapic' k _ => ?_⟩⟩
    · exact ⟨Or.inl, fun h => h.resolve_right fun h => hbelow h.1⟩
    · rw [decide_eq_false fun h => hbelow h.1, Bool.or_false]
    · rw [if_neg fun h => hbelow h.2.1]
  rw [if_pos (hcond.2 hbelow)]
  dsimp only
  obtain ⟨k₀, hk₀⟩ : ∃ k₀, ioapic.gsiBase.toNat + k₀ = irq.gsi.toNat :=
    ⟨irq.gsi.toNat - ioapic.gsiBase.toNat, by have := hbelow.1; omega⟩
  have hk₀' : k₀ < 120 := by
    have := (hbelow.inRange hlast).2
    omega
  by_cases hmapped : s.legacyMappedIrqs irq.gsi.toNat = true
  · rw [if_pos hmapped]
    refine ⟨hver, fun x => ?_, fun _ => ⟨fun g => ?_, fun ioapic' k _ => ?_⟩⟩
    · simp [hbelow]
    · by_cases hg : g = irq.gsi.toNat
      · rw [hg, hmapped, Bool.true_or]
      · rw [decide_eq_false fun h => hg h.2, Bool.or_false]
    · rw [if_neg fun h => by rw [hmapped] at h; exact absurd h.2.2.2 (by decide)]
  rw [if_neg hmapped]
  have hentry : ∀ ioapic' k, k < 120 →
      tableEntry (redirectGsi s.regs (some ioapic) irq.irqSrc irq.gsi irq.flags lapicId).1 ioapic' k =
        if ioapic'.ioapic = ioapic.ioapic ∧ Below d ioapic irq.gsi.toNat ∧
            ioapic.gsiBase.toNat + k = irq.gsi.toNat ∧ s.legacyMappedIrqs irq.gsi.toNat = false then
          redirection irq.irqSrc irq.flags lapicId
        else tableEntry s.regs ioapic' k := by
    intro ioapic' k hk
    rw [redirectGsi, tableEntry_write hk₀ hk₀' hk]
    refine if_congr ?_ rfl rfl
    refine and_congr_right fun _ => ⟨fun h => ⟨hbelow, by omega, by simpa using hmapped⟩, ?_⟩
    rintro ⟨_, h, _⟩
    omega
  have hversion := fun b => (write_version (d := s.regs) hk₀ hk₀'
    (redirection irq.irqSrc irq.flags lapicId) b).trans (hver b)
  by_cases hlegacy : irq.gsi < 16
  · rw [if_pos hlegacy]
    refine ⟨hversion, fun x => ?_, fun _ => ⟨fun g => ?_, hentry⟩⟩
    · simp [hbelow]
    · dsimp only
      by_cases hg : g = irq.gsi.toNat
      · rw [hg, Function.update_self, decide_eq_true ⟨hbelow, rfl⟩, Bool.or_true]
      · rw [Function.update_of_ne hg, decide_eq_false fun h => hg h.2, Bool.or_false]
  · rw [if_neg hlegacy]
    refine ⟨hversion, fun x => ?_, fun h => absurd (UInt32.lt_iff_toNat_lt.2 (h hbelow)) hlegacy⟩
    simp [hbelow]

/-- All overrides, for one I/O APIC. -/
theorem routeOverrides_spec (hlast : lastIndex d ioapic < 120) :
    ∀ (irqOverrides : List Ent2) (s : Routing), (∀ b, s.regs b 1 = d b 1) →
      ∀ s', irqOverrides.foldl (routeOverride lapicId ioapic (gsiEnd d ioapic)) s = s' →
        (∀ b, s'.regs b 1 = d b 1) ∧
        (∀ x, x ∈ s'.indices ↔ x ∈ s.indices ∨ ∃ irq ∈ irqOverrides,
          Below d ioapic irq.gsi.toNat ∧ x = irq.gsi.toNat) ∧
        ((∀ irq ∈ irqOverrides, Below d ioapic irq.gsi.toNat → irq.gsi.toNat < 16) →
          (∀ g, s'.legacyMappedIrqs g = (s.legacyMappedIrqs g ||
            decide (Below d ioapic g ∧ (overrideAt irqOverrides g).isSome))) ∧
          ∀ ioapic' k, k < 120 → tableEntry s'.regs ioapic' k =
            if ioapic'.ioapic = ioapic.ioapic ∧ Below d ioapic (ioapic.gsiBase.toNat + k) ∧
                s.legacyMappedIrqs (ioapic.gsiBase.toNat + k) = false then
              match overrideAt irqOverrides (ioapic.gsiBase.toNat + k) with
              | some irq => redirection irq.irqSrc irq.flags lapicId
              | none => tableEntry s.regs ioapic' k
            else tableEntry s.regs ioapic' k) := by
  intro irqOverrides
  induction irqOverrides with
  | nil =>
    rintro s hver s' rfl
    refine ⟨hver, fun x => by simp, fun _ => ⟨fun g => by simp [overrideAt], fun ioapic' k _ => ?_⟩⟩
    exact (ite_self _).symm
  | cons irq irqs ih =>
    rintro s hver s' rfl
    obtain ⟨hver₁, hlog₁, hstep⟩ := routeOverride_spec lapicId hlast hver irq
    obtain ⟨hver₂, hlog₂, hrest⟩ := ih _ hver₁ _ rfl
    rw [List.foldl_cons]
    refine ⟨hver₂, fun x => ?_, fun hlegacy => ?_⟩
    · rw [hlog₂, hlog₁, List.exists_mem_cons_iff, or_assoc]
    · obtain ⟨hmapped₁, hentry₁⟩ := hstep (hlegacy irq List.mem_cons_self)
      obtain ⟨hmapped₂, hentry₂⟩ := hrest fun irq' h => hlegacy irq' (List.mem_cons_of_mem _ h)
      refine ⟨fun g => ?_, fun ioapic' k hk => ?_⟩
      · rw [hmapped₂, hmapped₁, Bool.or_assoc]
        congr 1
        by_cases hg : irq.gsi.toNat = g
        · rw [overrideAt_cons_self hg]
          by_cases hbelow : Below d ioapic g <;> simp [hbelow, hg]
        · rw [overrideAt_cons_of_ne hg, decide_eq_false fun h => hg h.2.symm, Bool.false_or]
      · rw [hentry₂ ioapic' k hk]
        have hsame : ¬ (ioapic'.ioapic = ioapic.ioapic ∧
            Below d ioapic (ioapic.gsiBase.toNat + k) ∧ irq.gsi.toNat = ioapic.gsiBase.toNat + k) →
            tableEntry (routeOverride lapicId ioapic (gsiEnd d ioapic) s irq).regs ioapic' k =
              tableEntry s.regs ioapic' k := by
          intro h
          rw [hentry₁ ioapic' k hk, if_neg fun h' =>
            h ⟨h'.1, by rw [h'.2.2.1]; exact h'.2.1, h'.2.2.1.symm⟩]
        by_cases hhere : ioapic'.ioapic = ioapic.ioapic ∧ Below d ioapic (ioapic.gsiBase.toNat + k)
        swap
        · rw [if_neg fun h => hhere ⟨h.1, h.2.1⟩, if_neg fun h => hhere ⟨h.1, h.2.1⟩,
            hsame fun h => hhere ⟨h.1, h.2.1⟩]
        obtain ⟨hwin, hbelow⟩ := hhere
        by_cases hg : irq.gsi.toNat = ioapic.gsiBase.toNat + k
        · -- the override of this entry: a second one finds the GSI mapped
          have hdone : ¬ (routeOverride lapicId ioapic (gsiEnd d ioapic) s irq).legacyMappedIrqs
              (ioapic.gsiBase.toNat + k) = false := by
            rw [hmapped₁, decide_eq_true ⟨hg ▸ hbelow, hg.symm⟩, Bool.or_true]
            decide
          rw [if_neg fun h => hdone h.2.2, hentry₁ ioapic' k hk, overrideAt_cons_self hg, hg]
          refine if_congr ?_ rfl rfl
          exact ⟨fun h => ⟨h.1, h.2.1, h.2.2.2⟩, fun h => ⟨h.1, h.2.1, rfl, h.2.2⟩⟩
        · rw [overrideAt_cons_of_ne hg, hmapped₁, decide_eq_false fun h => hg h.2.symm, Bool.or_false,
            hsame fun h => hg h.2.2]

/-- What `configure` leaves in an entry before the last loop. -/
def routedEntry (irqOverrides : List Ent2) (g : ℕ) (e : UInt64) : UInt64 :=
  match overrideAt irqOverrides g with
  | some irq => redirection irq.irqSrc irq.flags lapicId
  | none => e ||| (1 : UInt64) <<< 16

theorem configureIoapic_spec (hlast : lastIndex d ioapic < 120) (irqOverrides : List Ent2)
    {s : Routing} (hver : ∀ b, s.regs b 1 = d b 1) :
    ∀ s', configureIoapic lapicId irqOverrides s ioapic = s' →
      (∀ b, s'.regs b 1 = d b 1) ∧
      (∀ x, x ∈ s'.indices ↔ x ∈ s.indices ∨ ∃ irq ∈ irqOverrides,
        Below d ioapic irq.gsi.toNat ∧ x = irq.gsi.toNat) ∧
      ((∀ irq ∈ irqOverrides, Below d ioapic irq.gsi.toNat → irq.gsi.toNat < 16) →
        (∀ g, s'.legacyMappedIrqs g = (s.legacyMappedIrqs g ||
          decide (Below d ioapic g ∧ (overrideAt irqOverrides g).isSome))) ∧
        (∀ ioapic' k, k < 120 → ioapic'.ioapic ≠ ioapic.ioapic →
          tableEntry s'.regs ioapic' k = tableEntry s.regs ioapic' k) ∧
        ∀ k, k < 120 → (s.legacyMappedIrqs (ioapic.gsiBase.toNat + k) = true →
            ioapic.gsiBase.toNat + k < 16 → ¬ Below d ioapic (ioapic.gsiBase.toNat + k)) →
          tableEntry s'.regs ioapic k =
            if Below d ioapic (ioapic.gsiBase.toNat + k) then
              routedEntry lapicId irqOverrides (ioapic.gsiBase.toNat + k) (tableEntry s.regs ioapic k)
            else tableEntry s.regs ioapic k) := by
  rintro s' rfl
  have hend := gsiEnd_toNat hlast
  obtain ⟨hver₁, hmask⟩ := maskFrom_spec ioapic
    ((gsiEnd d ioapic).toNat - ioapic.gsiBase.toNat) ioapic.gsiBase 0 s.regs (by omega)
    (by omega) (by have := (gsiEnd d ioapic).toNat_lt; have := ioapic.gsiBase.toNat_lt; omega)
  unfold configureIoapic
  dsimp only
  rw [gsiEnd_congr hver]
  generalize maskFrom ioapic ((gsiEnd d ioapic).toNat - ioapic.gsiBase.toNat) ioapic.gsiBase
    s.regs = masked at hver₁ hmask ⊢
  obtain ⟨hver₂, hlog, hrest⟩ := routeOverrides_spec lapicId hlast irqOverrides
    { s with regs := masked } (fun b => (hver₁ b).trans (hver b)) _ rfl
  refine ⟨hver₂, hlog, fun hlegacy => ?_⟩
  obtain ⟨hmapped, hentry⟩ := hrest hlegacy
  refine ⟨hmapped, fun ioapic' k hk hwin => ?_, fun k hk hfree => ?_⟩
  · rw [hentry ioapic' k hk, if_neg fun h => hwin h.1]
    dsimp only
    rw [hmask ioapic' k hk, if_neg fun h => hwin h.1]
  · rw [hentry ioapic k hk]
    dsimp only
    rw [hmask ioapic k hk]
    by_cases hbelow : Below d ioapic (ioapic.gsiBase.toNat + k)
    · have hmasked : 0 ≤ k ∧ k < 0 + ((gsiEnd d ioapic).toNat - ioapic.gsiBase.toNat) := by
        have := hbelow.2
        omega
      rw [if_pos (show _ = _ ∧ _ from ⟨rfl, hmasked⟩), if_pos hbelow, routedEntry]
      by_cases hused : s.legacyMappedIrqs (ioapic.gsiBase.toNat + k) = false
      · rw [if_pos ⟨rfl, hbelow, hused⟩]
      · rw [if_neg fun h => hused h.2.2]
        -- behind the array: no override is routed there
        have hnone : overrideAt irqOverrides (ioapic.gsiBase.toNat + k) = none := by
          rw [overrideAt, List.find?_eq_none]
          intro irq hirq heq
          have heq : irq.gsi.toNat = ioapic.gsiBase.toNat + k := by simpa using heq
          have hlow := hlegacy irq hirq (heq ▸ hbelow)
          exact hfree (by simpa using hused) (heq ▸ hlow) hbelow
        rw [hnone]
    · rw [if_neg fun h => hbelow h.2.1, if_neg hbelow]
      rw [if_neg fun h => hbelow ⟨by omega, by have := h.2.2; omega⟩]

end

end Apic

end Ospp
