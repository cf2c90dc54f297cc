import Ospp.Klib.StaticArray
import Ospp.Lib.Mem
import Ospp.Lib.Traced

/-!
# The MADT

`apic::init` from `sys/apic.hpp`: a walk over the entries of the ACPI table that lists the interrupt
controllers. Every entry starts with its type and its length; the types the kernel knows are read
through a packed struct each, and kept in a `StaticArray` for each type.

The table is in memory that is mapped at its physical address, so the reads are reads of that
memory. `find_sdth` has found the table and checked its sum; the walk does not depend on that.

`walk_stays_iff` says when the walk ends and stays in the table, and `decodes_iff` when its result
is what the table says.
-/

namespace Ospp

namespace Madt

/-! ## Entries -/

/-- `madt::entX`: the header of an entry. -/
structure EntX where
  type : UInt8
  length : UInt8
  deriving DecidableEq

/-- A processor's local APIC. -/
structure Ent0 extends EntX where
  acpiProcessorId : UInt8
  apicId : UInt8
  cpuFlags : UInt32
  deriving DecidableEq

/-- An I/O APIC, with its base address. -/
structure Ent1 extends EntX where
  ioapicId : UInt8
  reserved : UInt8
  ioapic : UInt32
  gsiBase : UInt32
  deriving DecidableEq

/-- An interrupt source override. -/
structure Ent2 extends EntX where
  busSrc : UInt8
  irqSrc : UInt8
  gsi : UInt32
  flags : UInt16
  deriving DecidableEq

/-- An NMI source. -/
structure Ent3 extends EntX where
  nmiSrc : UInt8
  reserved : UInt8
  flags : UInt32
  gsi : UInt32
  deriving DecidableEq

/-- The local interrupt pin of an NMI. -/
structure Ent4 extends EntX where
  acpiProcessorId : UInt8
  flags : UInt16
  lint : UInt8
  deriving DecidableEq

section

variable (m : Mem) (p : ℕ)

def readX : EntX := ⟨m.read8 p, m.read8 (p + 1)⟩

def read0 : Ent0 where
  toEntX := readX m p
  acpiProcessorId := m.read8 (p + 2)
  apicId := m.read8 (p + 3)
  cpuFlags := .ofNat (m.read32 (p + 4))

def read1 : Ent1 where
  toEntX := readX m p
  ioapicId := m.read8 (p + 2)
  reserved := m.read8 (p + 3)
  ioapic := .ofNat (m.read32 (p + 4))
  gsiBase := .ofNat (m.read32 (p + 8))

def read2 : Ent2 where
  toEntX := readX m p
  busSrc := m.read8 (p + 2)
  irqSrc := m.read8 (p + 3)
  gsi := .ofNat (m.read32 (p + 4))
  flags := .ofNat (m.read16 (p + 8))

def read3 : Ent3 where
  toEntX := readX m p
  nmiSrc := m.read8 (p + 2)
  reserved := m.read8 (p + 3)
  flags := .ofNat (m.read32 (p + 4))
  gsi := .ofNat (m.read32 (p + 8))

def read4 : Ent4 where
  toEntX := readX m p
  acpiProcessorId := m.read8 (p + 2)
  flags := .ofNat (m.read16 (p + 3))
  lint := m.read8 (p + 5)

end

/-- The size of the struct an entry of a type is read through; the header of one of an unknown
type. -/
def structSize : ℕ → ℕ
  | 0 => 8
  | 1 => 12
  | 2 => 10
  | 3 => 12
  | 4 => 6
  | 5 => 12
  | _ => 2

end Madt

open Madt

/-! ## The walk -/

/-- The class `apic`. -/
structure Apic where
  lapics : StaticArray Ent0 64
  ioapics : StaticArray Ent1 64
  irqOverrides : StaticArray Ent2 64
  nmiSources : StaticArray Ent3 64
  lintSources : StaticArray Ent4 64
  lapicBase : UInt32

/-- What `init` does besides filling its arrays: it reads `len` bytes at an address, and it maps and
unmaps pages. -/
inductive ApicEvent where
  | read (addr len : ℕ)
  | mapIdentityPage (addr : ℕ)
  | unmapPage (addr : ℕ)
  deriving DecidableEq

namespace Apic

def new : Apic := ⟨.empty, .empty, .empty, .empty, .empty, 0⟩

/-- The switch on the type of the entry at `ent`. -/
def entry (m : Mem) (ent : ℕ) (s : Apic) : Traced ApicEvent Halt Apic :=
  match (m.read8 ent).toNat with
  | 0 => do
    Traced.emit (.read ent 8)
    let (lapics, _) ← Traced.lift (s.lapics.emplace (read0 m ent))
    pure { s with lapics := lapics }
  | 1 => do
    Traced.emit (.read ent 12)
    let (ioapics, _) ← Traced.lift (s.ioapics.emplace (read1 m ent))
    Traced.emit (.mapIdentityPage (read1 m ent).ioapic.toNat)
    pure { s with ioapics := ioapics }
  | 2 => do
    Traced.emit (.read ent 10)
    let (irqOverrides, _) ← Traced.lift (s.irqOverrides.emplace (read2 m ent))
    pure { s with irqOverrides := irqOverrides }
  | 3 => do
    Traced.emit (.read ent 12)
    let (nmiSources, _) ← Traced.lift (s.nmiSources.emplace (read3 m ent))
    pure { s with nmiSources := nmiSources }
  | 4 => do
    Traced.emit (.read ent 6)
    let (lintSources, _) ← Traced.lift (s.lintSources.emplace (read4 m ent))
    pure { s with lintSources := lintSources }
  | 5 => do
    -- the low half of a 64-bit field
    Traced.emit (.read (ent + 4) 8)
    pure { s with lapicBase := .ofNat (m.read32 (ent + 4)) }
  | _ => pure s

/-- `while (size_bytes > 0)`. -/
def walk (m : Mem) : ℕ → ℕ → ℤ → Apic → Traced ApicEvent Halt Apic
  | 0, _, _, _ => Traced.lift (.error .diverged)
  | fuel + 1, ent, sizeBytes, s =>
    if 0 < sizeBytes then do
      Traced.emit (.read ent 2)
      let currentLength := (m.read8 (ent + 1)).toNat
      let s ← entry m ent s
      walk m fuel (ent + currentLength) (sizeBytes - currentLength) s
    else pure s

/-- A word as an `int32_t`. -/
def toInt32 (x : ℕ) : ℤ := if x < 2147483648 then x else x - 4294967296

/-- The length of the table at `madt`. -/
def tableLength (m : Mem) (madt : ℕ) : ℕ := m.read32 (madt + 4)

/-- `init`, for the table that `find_sdth` found. -/
def init (fuel : ℕ) (m : Mem) (madt : ℕ) (s : Apic) : Traced ApicEvent Halt Apic :=
  if madt = 0 then pure s
  else do
    Traced.emit (.read (madt + 36) 4)
    let s := { s with lapicBase := .ofNat (m.read32 (madt + 36)) }
    Traced.emit (.mapIdentityPage madt)
    Traced.emit (.read (madt + 4) 4)
    let s ← walk m fuel (madt + 44) (toInt32 (Word32.sub (tableLength m madt) 44)) s
    Traced.emit (.unmapPage madt)
    Traced.emit (.mapIdentityPage s.lapicBase.toNat)
    pure s

/-! ## Arrays as lists -/

/-- What the arrays hold. -/
structure Lists where
  lapics : List Ent0
  ioapics : List Ent1
  irqOverrides : List Ent2
  nmiSources : List Ent3
  lintSources : List Ent4
  lapicBase : UInt32

namespace Lists

def toApic (d : Lists) : Apic where
  lapics := .ofList d.lapics
  ioapics := .ofList d.ioapics
  irqOverrides := .ofList d.irqOverrides
  nmiSources := .ofList d.nmiSources
  lintSources := .ofList d.lintSources
  lapicBase := d.lapicBase

/-- How many entries of a type are kept. -/
def count (d : Lists) : ℕ → ℕ
  | 0 => d.lapics.length
  | 1 => d.ioapics.length
  | 2 => d.irqOverrides.length
  | 3 => d.nmiSources.length
  | 4 => d.lintSources.length
  | _ => 0

/-- The entry at `p` is added. -/
def push (d : Lists) (m : Mem) (p : ℕ) : Lists :=
  match (m.read8 p).toNat with
  | 0 => { d with lapics := d.lapics ++ [read0 m p] }
  | 1 => { d with ioapics := d.ioapics ++ [read1 m p] }
  | 2 => { d with irqOverrides := d.irqOverrides ++ [read2 m p] }
  | 3 => { d with nmiSources := d.nmiSources ++ [read3 m p] }
  | 4 => { d with lintSources := d.lintSources ++ [read4 m p] }
  | 5 => { d with lapicBase := .ofNat (m.read32 (p + 4)) }
  | _ => d

end Lists

/-- What is read of the entry behind its header. -/
def bodyRead (m : Mem) (p : ℕ) : List ApicEvent :=
  match (m.read8 p).toNat with
  | 5 => [.read (p + 4) 8]
  | 0 | 1 | 2 | 3 | 4 => [.read p (structSize (m.read8 p).toNat)]
  | _ => []

/-- The page of an I/O APIC is mapped. -/
def bodyMap (m : Mem) (p : ℕ) : List ApicEvent :=
  match (m.read8 p).toNat with
  | 1 => [.mapIdentityPage (read1 m p).ioapic.toNat]
  | _ => []

/-- An entry for which there is room. -/
theorem entry_room {m : Mem} {p : ℕ} {d : Lists} (h : d.count (m.read8 p).toNat < 64) :
    entry m p d.toApic = ⟨bodyRead m p ++ bodyMap m p, .ok (d.push m p).toApic⟩ := by
  unfold entry bodyRead bodyMap Lists.push Lists.toApic
  revert h
  generalize (m.read8 p).toNat = t
  intro h
  match t, h with
  | 0, h => dsimp only; rw [StaticArray.emplace_ofList _ h]; rfl
  | 1, h => dsimp only; rw [StaticArray.emplace_ofList _ h]; rfl
  | 2, h => dsimp only; rw [StaticArray.emplace_ofList _ h]; rfl
  | 3, h => dsimp only; rw [StaticArray.emplace_ofList _ h]; rfl
  | 4, h => dsimp only; rw [StaticArray.emplace_ofList _ h]; rfl
  | 5, _ => rfl
  | t + 6, _ => rfl

/-- An entry that meets a full array. -/
theorem entry_full {m : Mem} {p : ℕ} {d : Lists} (h : 64 ≤ d.count (m.read8 p).toNat) :
    entry m p d.toApic = ⟨bodyRead m p, .error (.panic "StaticArray full")⟩ := by
  unfold entry bodyRead Lists.toApic
  revert h
  generalize (m.read8 p).toNat = t
  intro h
  match t, h with
  | 0, h => dsimp only; rw [StaticArray.emplace_full _ h]; rfl
  | 1, h => dsimp only; rw [StaticArray.emplace_full _ h]; rfl
  | 2, h => dsimp only; rw [StaticArray.emplace_full _ h]; rfl
  | 3, h => dsimp only; rw [StaticArray.emplace_full _ h]; rfl
  | 4, h => dsimp only; rw [StaticArray.emplace_full _ h]; rfl

/-! ## The entries the walk comes to -/

section

variable (m : Mem) (madt : ℕ)

/-- The offset of the entry the walk comes to after `n` others. -/
def visit : ℕ → ℕ
  | 0 => 44
  | n + 1 => visit n + (m.read8 (madt + visit n + 1)).toNat

def typeAt (n : ℕ) : ℕ := (m.read8 (madt + visit m madt n)).toNat

def lengthAt (n : ℕ) : ℕ := (m.read8 (madt + visit m madt n + 1)).toNat

/-- How many of the first `n` entries have type `t`. -/
def met (n t : ℕ) : ℕ := (List.range n).countP fun k => typeAt m madt k = t

/-- What has been kept of the first `n` entries. -/
def lists : ℕ → Lists
  | 0 => ⟨[], [], [], [], [], .ofNat (m.read32 (madt + 36))⟩
  | n + 1 => (lists n).push m (madt + visit m madt n)

/-- The walk comes to this entry: the table goes that far, and no array has been full before. -/
def Reached (n : ℕ) : Prop :=
  visit m madt n < tableLength m madt ∧ ∀ t < 5, met m madt n t ≤ 64

/-- Every entry the walk comes to ends inside the table, with the struct it is read through, and if
its length is zero then it is of a type that is kept. A table of more than `INT32_MAX` bytes behind
its header is not walked. -/
def WellFormed : Prop :=
  tableLength m madt < 2147483692 → ∀ n, Reached m madt n →
    visit m madt n + structSize (typeAt m madt n) ≤ tableLength m madt ∧
      (lengthAt m madt n = 0 → typeAt m madt n < 5)

/-- The walk from the `n`th entry on. -/
def walkAt (fuel n : ℕ) : Traced ApicEvent Halt Apic :=
  walk m fuel (madt + visit m madt n) (tableLength m madt - visit m madt n : ℤ)
    (lists m madt n).toApic

/-- What the walk reads of the `n`th entry. -/
def readsAt (n : ℕ) : List ApicEvent :=
  .read (madt + visit m madt n) 2 :: bodyRead m (madt + visit m madt n)

end

variable {m : Mem} {madt : ℕ}

theorem visit_succ (n : ℕ) : visit m madt (n + 1) = visit m madt n + lengthAt m madt n := rfl

theorem visit_mono {n n' : ℕ} (h : n ≤ n') : visit m madt n ≤ visit m madt n' := by
  induction n', h using Nat.le_induction with
  | base => exact le_rfl
  | succ n' _ ih => exact ih.trans (Nat.le_add_right _ _)

theorem met_succ (n t : ℕ) :
    met m madt (n + 1) t = met m madt n t + if typeAt m madt n = t then 1 else 0 := by
  unfold met
  rw [List.range_succ, List.countP_append, List.countP_singleton]
  simp only [decide_eq_true_eq]

theorem met_mono {n n' : ℕ} (h : n ≤ n') (t : ℕ) : met m madt n t ≤ met m madt n' t := by
  induction n', h using Nat.le_induction with
  | base => exact le_rfl
  | succ n' _ ih => rw [met_succ]; omega

theorem Lists.count_push (d : Lists) (p t : ℕ) :
    (d.push m p).count t = d.count t + if (m.read8 p).toNat = t ∧ t < 5 then 1 else 0 := by
  unfold Lists.push
  generalize (m.read8 p).toNat = u
  match u with
  | 0 | 1 | 2 | 3 | 4 =>
    match t with
    | 0 | 1 | 2 | 3 | 4 => simp [Lists.count]
    | t + 5 => simp [Lists.count]
  | 5 =>
    match t with
    | 0 | 1 | 2 | 3 | 4 => simp [Lists.count]
    | t + 5 => simp [Lists.count]
  | u + 6 => rw [if_neg (by omega)]; rfl

theorem count_lists {t : ℕ} (ht : t < 5) (n : ℕ) : (lists m madt n).count t = met m madt n t := by
  induction n with
  | zero =>
    match t, ht with
    | 0, _ | 1, _ | 2, _ | 3, _ | 4, _ => rfl
  | succ n ih =>
    rw [lists, Lists.count_push, ih, met_succ]
    simp only [ht, and_true]
    rfl

theorem Reached.mono {n n' : ℕ} (h : Reached m madt n') (hn : n ≤ n') : Reached m madt n :=
  ⟨lt_of_le_of_lt (visit_mono hn) h.1, fun t ht => (met_mono hn t).trans (h.2 t ht)⟩

/-- There was room for an entry behind which the walk goes on. -/
theorem room_of_met {n : ℕ} (h : ∀ t < 5, met m madt (n + 1) t ≤ 64) :
    (lists m madt n).count (typeAt m madt n) < 64 := by
  by_cases ht : typeAt m madt n < 5
  · have := h _ ht
    rw [met_succ, if_pos rfl] at this
    rw [count_lists ht]
    omega
  · obtain ⟨k, hk⟩ : ∃ k, typeAt m madt n = k + 5 := ⟨typeAt m madt n - 5, by omega⟩
    rw [hk]
    exact Nat.zero_lt_succ 63

/-- An entry for which there was room leaves the arrays within their capacity. -/
theorem met_of_room {n : ℕ} (h : ∀ t < 5, met m madt n t ≤ 64)
    (hroom : (lists m madt n).count (typeAt m madt n) < 64) : ∀ t < 5, met m madt (n + 1) t ≤ 64 := by
  intro t ht
  rw [met_succ]
  have := h t ht
  split_ifs with heq
  · rw [heq, count_lists ht] at hroom
    omega
  · omega

theorem walkAt_done {fuel n : ℕ} (h : tableLength m madt ≤ visit m madt n) :
    walkAt m madt (fuel + 1) n = pure (lists m madt n).toApic := by
  unfold walkAt walk
  rw [if_neg (by omega)]

theorem walkAt_full {fuel n : ℕ} (h : visit m madt n < tableLength m madt)
    (hfull : 64 ≤ (lists m madt n).count (typeAt m madt n)) :
    walkAt m madt (fuel + 1) n = ⟨readsAt m madt n, .error (.panic "StaticArray full")⟩ := by
  unfold walkAt walk
  rw [if_pos (by omega), entry_full hfull]
  rfl

theorem walkAt_step {fuel n : ℕ} (h : visit m madt n < tableLength m madt)
    (hroom : (lists m madt n).count (typeAt m madt n) < 64) :
    walkAt m madt (fuel + 1) n =
      ⟨readsAt m madt n ++ bodyMap m (madt + visit m madt n) ++ (walkAt m madt fuel (n + 1)).trace,
        (walkAt m madt fuel (n + 1)).result⟩ := by
  have hnext : walkAt m madt fuel (n + 1) =
      walk m fuel (madt + visit m madt n + lengthAt m madt n)
        ((tableLength m madt - visit m madt n : ℤ) - lengthAt m madt n)
        ((lists m madt n).push m (madt + visit m madt n)).toApic := by
    unfold walkAt
    rw [visit_succ, ← Nat.add_assoc, Nat.cast_add, sub_add_eq_sub_sub]
    rfl
  rw [hnext]
  unfold walkAt
  rw [walk, if_pos (by omega), entry_room hroom]
  rfl

/-! ## Reads -/

/-- The walk reads every entry it comes to. -/
theorem readsAt_subset : ∀ (i n fuel : ℕ), Reached m madt (n + i) → i < fuel →
    ∀ e ∈ readsAt m madt (n + i), e ∈ (walkAt m madt fuel n).trace := by
  intro i
  induction i with
  | zero =>
    intro n fuel h hf e he
    rw [Nat.add_zero] at h he
    obtain ⟨fuel, rfl⟩ : ∃ k, fuel = k + 1 := ⟨fuel - 1, by omega⟩
    rcases Nat.lt_or_ge ((lists m madt n).count (typeAt m madt n)) 64 with hr | hr
    · rw [walkAt_step h.1 hr]
      exact List.mem_append_left _ (List.mem_append_left _ he)
    · rw [walkAt_full h.1 hr]
      exact he
  | succ i ih =>
    intro n fuel h hf e he
    obtain ⟨fuel, rfl⟩ : ∃ k, fuel = k + 1 := ⟨fuel - 1, by omega⟩
    have hnext : Reached m madt (n + 1) := h.mono (by omega)
    rw [walkAt_step (h.mono (by omega)).1 (room_of_met hnext.2)]
    refine List.mem_append_right _ (ih (n + 1) fuel ?_ (by omega) e ?_)
    · rw [Nat.add_right_comm, Nat.add_assoc]
      exact h
    · rw [Nat.add_right_comm, Nat.add_assoc]
      exact he

/-- It reads nothing else. -/
theorem exists_readsAt : ∀ {fuel n : ℕ} {a k : ℕ}, (∀ t < 5, met m madt n t ≤ 64) →
    ApicEvent.read a k ∈ (walkAt m madt fuel n).trace →
      ∃ n', Reached m madt n' ∧ ApicEvent.read a k ∈ readsAt m madt n' := by
  intro fuel
  induction fuel with
  | zero => intro n a k _ he; cases he
  | succ fuel ih =>
    intro n a k hmet he
    rcases Nat.lt_or_ge (visit m madt n) (tableLength m madt) with hv | hv
    · rcases Nat.lt_or_ge ((lists m madt n).count (typeAt m madt n)) 64 with hr | hr
      · rw [walkAt_step hv hr] at he
        rcases List.mem_append.1 he with he | he
        · rcases List.mem_append.1 he with he | he
          · exact ⟨n, ⟨hv, hmet⟩, he⟩
          · unfold bodyMap at he
            split at he <;> simp at he
        · exact ih (met_of_room hmet hr) he
      · rw [walkAt_full hv hr] at he
        exact ⟨n, ⟨hv, hmet⟩, he⟩
    · rw [walkAt_done hv] at he
      cases he

/-- The reads of an entry are inside the table exactly when its struct is. -/
theorem readsAt_inside (n : ℕ) : (∀ a k, ApicEvent.read a k ∈ readsAt m madt n →
      madt ≤ a ∧ a + k ≤ madt + tableLength m madt) ↔
    visit m madt n + structSize (typeAt m madt n) ≤ tableLength m madt := by
  unfold readsAt bodyRead
  rw [show (m.read8 (madt + visit m madt n)).toNat = typeAt m madt n from rfl]
  generalize typeAt m madt n = t
  match t with
  | 0 | 1 | 2 | 3 | 4 | 5 =>
    simp only [List.mem_cons, List.not_mem_nil, or_false, ApicEvent.read.injEq, structSize]
    constructor
    · intro h
      have := (h _ _ (Or.inr ⟨rfl, rfl⟩)).2
      omega
    · rintro h a k (⟨rfl, rfl⟩ | ⟨rfl, rfl⟩) <;> omega
  | t + 6 =>
    simp only [List.mem_cons, List.not_mem_nil, or_false, ApicEvent.read.injEq, structSize]
    constructor
    · intro h
      have := (h _ _ ⟨rfl, rfl⟩).2
      omega
    · rintro h a k ⟨rfl, rfl⟩
      omega

/-! ## The end of the walk -/

/-- An entry of length zero that is not kept is met for ever. -/
theorem walkAt_stuck : ∀ {fuel n : ℕ}, visit m madt n < tableLength m madt → lengthAt m madt n = 0 →
    5 ≤ typeAt m madt n → (walkAt m madt fuel n).result = .error .diverged := by
  intro fuel
  induction fuel with
  | zero => intro n _ _ _; rfl
  | succ fuel ih =>
    intro n hv hlen ht
    obtain ⟨k, hk⟩ : ∃ k, typeAt m madt n = k + 5 := ⟨typeAt m madt n - 5, by omega⟩
    have hroom : (lists m madt n).count (typeAt m madt n) < 64 := by
      rw [hk]
      exact Nat.zero_lt_succ 63
    have hsame : visit m madt (n + 1) = visit m madt n := by rw [visit_succ, hlen, Nat.add_zero]
    rw [walkAt_step hv hroom]
    refine ih ?_ ?_ ?_
    · rw [hsame]; exact hv
    · unfold lengthAt; rw [hsame]; exact hlen
    · unfold typeAt; rw [hsame]; exact ht

theorem walkAt_skip : ∀ (i n fuel : ℕ), Reached m madt (n + i) →
    (walkAt m madt (i + fuel) n).result = (walkAt m madt fuel (n + i)).result := by
  intro i
  induction i with
  | zero => intro n fuel _; rw [Nat.zero_add, Nat.add_zero]
  | succ i ih =>
    intro n fuel h
    have hnext : Reached m madt (n + 1) := h.mono (by omega)
    rw [show i + 1 + fuel = i + fuel + 1 by omega,
      walkAt_step (h.mono (by omega)).1 (room_of_met hnext.2)]
    show (walkAt m madt (i + fuel) (n + 1)).result = _
    rw [ih (n + 1) fuel (by rw [Nat.add_right_comm, Nat.add_assoc]; exact h), Nat.add_right_comm,
      Nat.add_assoc]

/-- With less fuel than there are entries the walk is not at its end. -/
theorem walkAt_short : ∀ (fuel n i : ℕ), Reached m madt (n + i) → fuel ≤ i →
    (walkAt m madt fuel n).result = .error .diverged := by
  intro fuel
  induction fuel with
  | zero => intro n i _ _; rfl
  | succ fuel ih =>
    intro n i h hf
    have hnext : Reached m madt (n + 1) := h.mono (by omega)
    rw [walkAt_step (h.mono (by omega)).1 (room_of_met hnext.2)]
    refine ih (n + 1) (i - 1) ?_ (by omega)
    rw [show n + 1 + (i - 1) = n + i by omega]
    exact h

/-- The bytes to go and the free slots. -/
def toGo (m : Mem) (madt n : ℕ) : ℕ :=
  (tableLength m madt - visit m madt n) + ((64 - met m madt n 0) + (64 - met m madt n 1) +
    (64 - met m madt n 2) + (64 - met m madt n 3) + (64 - met m madt n 4))

theorem toGo_succ_lt {n : ℕ} (hv : visit m madt n < tableLength m madt)
    (hmet : ∀ t < 5, met m madt (n + 1) t ≤ 64)
    (hlen : lengthAt m madt n = 0 → typeAt m madt n < 5) : toGo m madt (n + 1) < toGo m madt n := by
  have h0 := hmet 0 (by omega)
  have h1 := hmet 1 (by omega)
  have h2 := hmet 2 (by omega)
  have h3 := hmet 3 (by omega)
  have h4 := hmet 4 (by omega)
  rw [met_succ] at h0 h1 h2 h3 h4
  unfold toGo
  simp only [met_succ, visit_succ]
  generalize typeAt m madt n = t at *
  by_cases hl : lengthAt m madt n = 0
  · have ht := hlen hl
    interval_cases t <;> simp at * <;> omega
  · split_ifs at * <;> omega

theorem walkAt_ends (hlen : ∀ n, Reached m madt n → lengthAt m madt n = 0 → typeAt m madt n < 5) :
    ∀ (fuel n : ℕ), (∀ t < 5, met m madt n t ≤ 64) → toGo m madt n < fuel →
      (walkAt m madt fuel n).result ≠ .error .diverged := by
  intro fuel
  induction fuel with
  | zero => intro n _ hf; omega
  | succ fuel ih =>
    intro n hmet hf
    rcases Nat.lt_or_ge (visit m madt n) (tableLength m madt) with hv | hv
    · rcases Nat.lt_or_ge ((lists m madt n).count (typeAt m madt n)) 64 with hr | hr
      · have hnext := met_of_room hmet hr
        rw [walkAt_step hv hr]
        have := toGo_succ_lt hv hnext (hlen n ⟨hv, hmet⟩)
        exact ih (n + 1) hnext (by omega)
      · rw [walkAt_full hv hr]
        intro h
        cases h
    · rw [walkAt_done hv]
      intro h
      cases h

/-! ## Termination and bounds -/

/-- The loop of `init`. -/
def entries (fuel : ℕ) (m : Mem) (madt : ℕ) : Traced ApicEvent Halt Apic :=
  walk m fuel (madt + 44) (toInt32 (Word32.sub (tableLength m madt) 44)) (lists m madt 0).toApic

theorem init_result {fuel : ℕ} (h : madt ≠ 0) :
    (init fuel m madt new).result = (entries fuel m madt).result := by
  unfold init
  rw [if_neg h]
  show (Traced.bind _ _).result = _
  have hs : ({ new with lapicBase := .ofNat (m.read32 (madt + 36)) } : Apic) =
      (lists m madt 0).toApic := rfl
  show (Traced.bind (entries fuel m madt) _).result = _
  unfold Traced.bind
  cases (entries fuel m madt).result with
  | error e => rfl
  | ok s => rfl

/-- The walk is between the reads of the header and two page operations. -/
theorem init_trace (fuel : ℕ) (h : madt ≠ 0) : ∃ tail : List ApicEvent,
    (∀ a k, ApicEvent.read a k ∉ tail) ∧
      (init fuel m madt new).trace = [.read (madt + 36) 4, .mapIdentityPage madt, .read (madt + 4) 4]
        ++ ((entries fuel m madt).trace ++ tail) := by
  unfold init
  rw [if_neg h]
  cases hw : (entries fuel m madt).result with
  | error e =>
    refine ⟨[], fun _ _ => List.not_mem_nil, ?_⟩
    show [ApicEvent.read (madt + 36) 4] ++ ([ApicEvent.mapIdentityPage madt] ++
      ([ApicEvent.read (madt + 4) 4] ++ (Traced.bind (entries fuel m madt) _).trace)) = _
    unfold Traced.bind
    rw [hw, List.append_nil]
    rfl
  | ok s =>
    refine ⟨[.unmapPage madt, .mapIdentityPage s.lapicBase.toNat], fun _ _ => by simp, ?_⟩
    show [ApicEvent.read (madt + 36) 4] ++ ([ApicEvent.mapIdentityPage madt] ++
      ([ApicEvent.read (madt + 4) 4] ++ (Traced.bind (entries fuel m madt) _).trace)) = _
    unfold Traced.bind
    rw [hw]
    rfl

theorem read_mem_init {fuel a k : ℕ} (h : madt ≠ 0) :
    ApicEvent.read a k ∈ (init fuel m madt new).trace ↔
      (a = madt + 36 ∧ k = 4) ∨ (a = madt + 4 ∧ k = 4) ∨
        ApicEvent.read a k ∈ (entries fuel m madt).trace := by
  obtain ⟨tail, htail, heq⟩ := @init_trace m madt fuel h
  rw [heq]
  simp [htail]

theorem tableLength_lt : tableLength m madt < 4294967296 := Mem.read32_lt _ _

/-- A table of up to `INT32_MAX` bytes behind its header is walked from its first entry on. -/
theorem entries_eq {fuel : ℕ} (hlen : 44 ≤ tableLength m madt)
    (hmax : tableLength m madt < 2147483692) :
    entries fuel m madt = walkAt m madt fuel 0 := by
  unfold entries walkAt toInt32
  rw [Word32.sub_eq tableLength_lt hlen, if_pos (by omega)]
  show walk m fuel (madt + 44) _ _ = walk m fuel (madt + 44) (tableLength m madt - (44 : ℕ) : ℤ) _
  congr 1
  omega

/-- A longer one is not. -/
theorem entries_long {fuel : ℕ} (hmax : 2147483692 ≤ tableLength m madt) :
    entries (fuel + 1) m madt = pure (lists m madt 0).toApic := by
  have hlt : tableLength m madt < 4294967296 := tableLength_lt
  unfold entries toInt32
  rw [Word32.sub_eq hlt (by omega), if_neg (by omega), walk, if_neg (by omega)]

/-- The walk ends, and reads nothing outside the table. -/
structure StaysInTable (m : Mem) (madt : ℕ) : Prop where
  ends : ∃ fuel, (init fuel m madt new).result ≠ .error .diverged
  inside : ∀ fuel a k, ApicEvent.read a k ∈ (init fuel m madt new).trace →
    madt ≤ a ∧ a + k ≤ madt + tableLength m madt

/-- **The walk.** It ends and stays in the table exactly when every entry it comes to ends inside
the table and, if it is of length zero, fills an array. -/
theorem walk_stays_iff (m : Mem) (madt : ℕ) (hmadt : madt ≠ 0) (hlen : 44 ≤ tableLength m madt) :
    StaysInTable m madt ↔ WellFormed m madt := by
  have hmet : ∀ t < 5, met m madt 0 t ≤ 64 := fun t _ => Nat.zero_le _
  constructor
  · rintro ⟨⟨fuel, hends⟩, hinside⟩ hmax n hn
    rw [init_result hmadt, entries_eq hlen hmax] at hends
    have hn' : Reached m madt (0 + n) := by rwa [Nat.zero_add]
    refine ⟨(readsAt_inside n).1 fun a k he => ?_, fun hzero => ?_⟩
    · refine hinside (n + 1) a k ((read_mem_init hmadt).2 (Or.inr (Or.inr ?_)))
      rw [entries_eq hlen hmax]
      exact readsAt_subset n 0 (n + 1) hn' (by omega) _ (by rwa [Nat.zero_add])
    · by_contra ht
      apply hends
      rcases Nat.lt_or_ge n fuel with hf | hf
      · rw [show fuel = n + (fuel - n) by omega, walkAt_skip n 0 _ hn', Nat.zero_add]
        exact walkAt_stuck hn.1 hzero (by omega)
      · exact walkAt_short fuel 0 n hn' hf
  · intro hwf
    rcases Nat.lt_or_ge (tableLength m madt) 2147483692 with hmax | hmax
    · refine ⟨⟨toGo m madt 0 + 1, ?_⟩, fun fuel a k he => ?_⟩
      · rw [init_result hmadt, entries_eq hlen hmax]
        exact walkAt_ends (fun n hn => (hwf hmax n hn).2) _ 0 hmet (Nat.lt_succ_self _)
      · rcases (read_mem_init hmadt).1 he with ⟨rfl, rfl⟩ | ⟨rfl, rfl⟩ | he
        · omega
        · omega
        · rw [entries_eq hlen hmax] at he
          obtain ⟨n, hn, hread⟩ := exists_readsAt hmet he
          exact (readsAt_inside n).2 (hwf hmax n hn).1 a k hread
    · refine ⟨⟨1, ?_⟩, fun fuel a k he => ?_⟩
      · rw [init_result hmadt, entries_long hmax]
        intro h
        cases h
      · rcases (read_mem_init hmadt).1 he with ⟨rfl, rfl⟩ | ⟨rfl, rfl⟩ | he
        · omega
        · omega
        · cases fuel with
          | zero => cases he
          | succ fuel =>
            rw [entries_long hmax] at he
            cases he

/-- `validate_checksum`. -/
def validateChecksum (m : Mem) (data length : ℕ) : Bool :=
  (List.range length).foldl (fun sum i => sum + m.read8 (data + i)) 0 == 0

/-- A memory that holds nothing but a table, at address 4096: a header with its checksum, and
entries. -/
def tableMem (checksum : UInt8) (body : List UInt8) : Mem :=
  let bytes := [65, 80, 73, 67] ++ Mem.leBytes 4 (44 + body.length) ++ [1, checksum] ++
    List.replicate 26 0 ++ Mem.leBytes 4 0xFEE00000 ++ Mem.leBytes 4 1 ++ body
  fun a => if 4096 ≤ a then bytes.getD (a - 4096) 0 else 0

theorem walk_stays_sample : 44 ≤ tableLength (tableMem 198 [0, 8, 0, 0, 1, 0, 0, 0]) 4096 ∧
    StaysInTable (tableMem 198 [0, 8, 0, 0, 1, 0, 0, 0]) 4096 := by
  have hlen : tableLength (tableMem 198 [0, 8, 0, 0, 1, 0, 0, 0]) 4096 = 52 := by decide
  refine ⟨by omega, (walk_stays_iff _ _ (by decide) (by omega)).2 fun _ n hn => ?_⟩
  rcases Nat.eq_zero_or_pos n with rfl | hpos
  · decide
  · have hv : visit (tableMem 198 [0, 8, 0, 0, 1, 0, 0, 0]) 4096 1 ≤
        visit (tableMem 198 [0, 8, 0, 0, 1, 0, 0, 0]) 4096 n := visit_mono hpos
    rw [show visit (tableMem 198 [0, 8, 0, 0, 1, 0, 0, 0]) 4096 1 = 52 by decide] at hv
    have := hn.1
    omega

/-- An entry of an unknown type and of length zero: the walk does not get past it. -/
theorem empty_entry_never_ends : ∃ m madt, madt ≠ 0 ∧
    validateChecksum m madt (tableLength m madt) = true ∧ 44 ≤ tableLength m madt ∧
    (∀ fuel, (init fuel m madt new).result = .error .diverged) ∧ ¬ StaysInTable m madt := by
  have hlen : tableLength (tableMem 207 [6, 0]) 4096 = 46 := by decide
  have hnever : ∀ fuel, (init fuel (tableMem 207 [6, 0]) 4096 new).result = .error .diverged := by
    intro fuel
    rw [init_result (by decide), entries_eq (by omega) (by omega)]
    exact walkAt_stuck (by rw [hlen]; decide) (by decide) (by decide)
  exact ⟨tableMem 207 [6, 0], 4096, by decide, by decide, by omega, hnever,
    fun h => h.ends.elim fun fuel hf => hf (hnever fuel)⟩

/-! ## Tables as the ACPI specification writes them -/

end Apic

/-- An entry of the table. What the specification reserves may hold anything. -/
inductive MadtEntry where
  | lapic (acpiProcessorId apicId : UInt8) (flags : UInt32)
  | ioapic (id reserved : UInt8) (addr gsiBase : UInt32)
  | irqOverride (bus irq : UInt8) (gsi : UInt32) (flags : UInt16)
  | nmiSource (flags : UInt16) (gsi : UInt32)
  | lapicNmi (acpiProcessorId : UInt8) (flags : UInt16) (lint : UInt8)
  | lapicAddr (reserved : UInt16) (addr : UInt64)
  | other (type : UInt8) (body : List UInt8) (htype : 6 ≤ type.toNat) (hbody : body.length ≤ 253)

namespace MadtEntry

def type : MadtEntry → ℕ
  | lapic .. => 0
  | ioapic .. => 1
  | irqOverride .. => 2
  | nmiSource .. => 3
  | lapicNmi .. => 4
  | lapicAddr .. => 5
  | other type .. => type.toNat

/-- The bytes of an entry. -/
def encode : MadtEntry → List UInt8
  | lapic acpiProcessorId apicId flags =>
    [0, 8, acpiProcessorId, apicId] ++ Mem.leBytes 4 flags.toNat
  | ioapic id reserved addr gsiBase =>
    [1, 12, id, reserved] ++ Mem.leBytes 4 addr.toNat ++ Mem.leBytes 4 gsiBase.toNat
  | irqOverride bus irq gsi flags =>
    [2, 10, bus, irq] ++ Mem.leBytes 4 gsi.toNat ++ Mem.leBytes 2 flags.toNat
  | nmiSource flags gsi => [3, 8] ++ Mem.leBytes 2 flags.toNat ++ Mem.leBytes 4 gsi.toNat
  | lapicNmi acpiProcessorId flags lint =>
    [4, 6, acpiProcessorId] ++ Mem.leBytes 2 flags.toNat ++ [lint]
  | lapicAddr reserved addr =>
    [5, 12] ++ Mem.leBytes 2 reserved.toNat ++ Mem.leBytes 8 addr.toNat
  | other type body .. => [type, .ofNat (body.length + 2)] ++ body

/-- What the kernel should keep of an entry, for each of its arrays. -/
def ent0? : MadtEntry → Option Ent0
  | lapic acpiProcessorId apicId flags => some ⟨⟨0, 8⟩, acpiProcessorId, apicId, flags⟩
  | _ => none

def ent1? : MadtEntry → Option Ent1
  | ioapic id reserved addr gsiBase => some ⟨⟨1, 12⟩, id, reserved, addr, gsiBase⟩
  | _ => none

def ent2? : MadtEntry → Option Ent2
  | irqOverride bus irq gsi flags => some ⟨⟨2, 10⟩, bus, irq, gsi, flags⟩
  | _ => none

/-- The flags and the interrupt of an NMI source: the other bytes of `ent3` are no field of it. -/
def nmi? : MadtEntry → Option (UInt32 × UInt32)
  | nmiSource flags gsi => some (flags.toUInt32, gsi)
  | _ => none

def ent4? : MadtEntry → Option Ent4
  | lapicNmi acpiProcessorId flags lint => some ⟨⟨4, 6⟩, acpiProcessorId, flags, lint⟩
  | _ => none

/-- The low half of the address of an override. -/
def base? : MadtEntry → Option UInt32
  | lapicAddr _ addr => some addr.toUInt32
  | _ => none

end MadtEntry

/-- The entries of a table, one behind the other. -/
def encodeEntries (es : List MadtEntry) : List UInt8 := es.flatMap MadtEntry.encode

/-- There is a table with these entries at `madt`. -/
structure MadtAt (m : Mem) (madt : ℕ) (base : UInt32) (es : List MadtEntry) : Prop where
  length : Apic.tableLength m madt = 44 + (encodeEntries es).length
  base : m.read32 (madt + 36) = base.toNat
  entries : m.Holds (madt + 44) (encodeEntries es)

/-- For each NMI source, the two fields of `ent3` hold what the table says: the first is read where
the entry has its interrupt, the second behind the entry. -/
def NmisReadRight (m : Mem) : ℕ → List MadtEntry → Prop
  | _, [] => True
  | p, e :: es =>
    (∀ flags gsi, e = .nmiSource flags gsi → gsi = flags.toUInt32 ∧ m.read32 (p + 8) = gsi.toNat) ∧
      NmisReadRight m (p + e.encode.length) es

namespace Apic

/-- The arrays but the one of NMI sources hold the entries of the table, in order, and the base is
the last one given. -/
structure DecodesOthers (s : Apic) (base : UInt32) (es : List MadtEntry) : Prop where
  lapics : s.lapics.items = es.filterMap MadtEntry.ent0?
  ioapics : s.ioapics.items = es.filterMap MadtEntry.ent1?
  irqOverrides : s.irqOverrides.items = es.filterMap MadtEntry.ent2?
  lintSources : s.lintSources.items = es.filterMap MadtEntry.ent4?
  lapicBase : s.lapicBase = (es.filterMap MadtEntry.base?).getLastD base

/-- All arrays hold the entries of the table. -/
structure Decodes (s : Apic) (base : UInt32) (es : List MadtEntry) : Prop
    extends DecodesOthers s base es where
  nmiSources : s.nmiSources.items.map (fun e => (e.flags, e.gsi)) = es.filterMap MadtEntry.nmi?

/-- What the code keeps of NMI sources that stand from `p` on. -/
def nmisRead (m : Mem) : ℕ → List MadtEntry → List Ent3
  | _, [] => []
  | p, e :: es =>
    (if e.type = 3 then [read3 m p] else []) ++ nmisRead m (p + e.encode.length) es

/-- The lists after the entries `es` that stand from `p` on. -/
def Lists.after (d : Lists) (m : Mem) (p : ℕ) (es : List MadtEntry) : Lists where
  lapics := d.lapics ++ es.filterMap MadtEntry.ent0?
  ioapics := d.ioapics ++ es.filterMap MadtEntry.ent1?
  irqOverrides := d.irqOverrides ++ es.filterMap MadtEntry.ent2?
  nmiSources := d.nmiSources ++ nmisRead m p es
  lintSources := d.lintSources ++ es.filterMap MadtEntry.ent4?
  lapicBase := (es.filterMap MadtEntry.base?).getLastD d.lapicBase

section

variable {m : Mem} {p : ℕ} {e : MadtEntry} {es : List MadtEntry} {d : Lists}

/-- The header of an entry. -/
theorem encode_header (e : MadtEntry) : (e.type < 256 ∧ e.encode.length < 256) ∧
    ∃ body, e.encode = .ofNat e.type :: .ofNat e.encode.length :: body := by
  cases e with
  | other t body ht hb =>
    refine ⟨⟨t.toNat_lt, ?_⟩, body, ?_⟩
    · show body.length + 2 < 256
      omega
    · show [t, .ofNat (body.length + 2)] ++ body = .ofNat t.toNat :: .ofNat (body.length + 2) :: body
      rw [UInt8.ofNat_toNat]
      rfl
  | _ => exact ⟨⟨of_decide_eq_true rfl, of_decide_eq_true rfl⟩, _, rfl⟩

theorem header_of_holds (h : m.Holds p e.encode) :
    (m.read8 p).toNat = e.type ∧ (m.read8 (p + 1)).toNat = e.encode.length := by
  obtain ⟨⟨ht, hl⟩, body, hbody⟩ := encode_header e
  rw [hbody] at h
  obtain ⟨h0, h1, _⟩ := h
  rw [h0, h1]
  exact ⟨UInt8.toNat_ofNat_of_lt' ht, UInt8.toNat_ofNat_of_lt' hl⟩

theorem ofNat_read32 {v : UInt32} (h : m.Holds p (Mem.leBytes 4 v.toNat)) :
    UInt32.ofNat (m.read32 p) = v := by
  rw [h.read32 le_rfl, Nat.mod_eq_of_lt v.toNat_lt, UInt32.ofNat_toNat]

theorem ofNat_read16 {v : UInt16} (h : m.Holds p (Mem.leBytes 2 v.toNat)) :
    UInt16.ofNat (m.read16 p) = v := by
  rw [h.read16 v.toNat_lt, UInt16.ofNat_toNat]

/-- The low half of a 64-bit field. -/
theorem ofNat_read32_low {v : UInt64} (h : m.Holds p (Mem.leBytes 8 v.toNat)) :
    UInt32.ofNat (m.read32 p) = v.toUInt32 := by
  rw [h.read32 (by norm_num), ← UInt32.toNat_inj, UInt64.toNat_toUInt32,
    UInt32.toNat_ofNat_of_lt' (Nat.mod_lt _ (by norm_num))]

/-- **One entry.** The struct of its type reads the fields of the specification; not so for an NMI
source. -/
theorem push_of_holds (h : m.Holds p e.encode) : d.push m p = d.after m p [e] := by
  have htype := (header_of_holds h).1
  unfold Lists.push Lists.after
  rw [htype]
  cases e with
  | lapic a b f =>
    obtain ⟨h0, h1, h2, h3, h4⟩ := h
    have hread : read0 m p = ⟨⟨0, 8⟩, a, b, f⟩ := by
      unfold read0 readX
      rw [h0, h1, show m.read8 (p + 2) = a from h2, show m.read8 (p + 3) = b from h3,
        ofNat_read32 (p := p + 4) h4]
    simp [MadtEntry.type, hread, nmisRead, MadtEntry.ent0?, MadtEntry.ent1?, MadtEntry.ent2?,
      MadtEntry.ent4?, MadtEntry.base?]
  | ioapic i r a g =>
    obtain ⟨⟨h0, h1, h2, h3, h4⟩, h8⟩ := Mem.holds_append.1 h
    have hread : read1 m p = ⟨⟨1, 12⟩, i, r, a, g⟩ := by
      unfold read1 readX
      rw [h0, h1, show m.read8 (p + 2) = i from h2, show m.read8 (p + 3) = r from h3,
        ofNat_read32 (p := p + 4) h4, ofNat_read32 (p := p + 8) h8]
    simp [MadtEntry.type, hread, nmisRead, MadtEntry.ent0?, MadtEntry.ent1?, MadtEntry.ent2?,
      MadtEntry.ent4?, MadtEntry.base?]
  | irqOverride b i g f =>
    obtain ⟨⟨h0, h1, h2, h3, h4⟩, h8⟩ := Mem.holds_append.1 h
    have hread : read2 m p = ⟨⟨2, 10⟩, b, i, g, f⟩ := by
      unfold read2 readX
      rw [h0, h1, show m.read8 (p + 2) = b from h2, show m.read8 (p + 3) = i from h3,
        ofNat_read32 (p := p + 4) h4, ofNat_read16 (p := p + 8) h8]
    simp [MadtEntry.type, hread, nmisRead, MadtEntry.ent0?, MadtEntry.ent1?, MadtEntry.ent2?,
      MadtEntry.ent4?, MadtEntry.base?]
  | nmiSource f g =>
    simp [MadtEntry.type, nmisRead, MadtEntry.ent0?, MadtEntry.ent1?, MadtEntry.ent2?,
      MadtEntry.ent4?, MadtEntry.base?]
  | lapicNmi a f l =>
    obtain ⟨⟨h0, h1, h2, h3⟩, h5, _⟩ := Mem.holds_append.1 h
    have hread : read4 m p = ⟨⟨4, 6⟩, a, f, l⟩ := by
      unfold read4 readX
      rw [h0, h1, show m.read8 (p + 2) = a from h2, ofNat_read16 (p := p + 3) h3,
        show m.read8 (p + 5) = l from h5]
    simp [MadtEntry.type, hread, nmisRead, MadtEntry.ent0?, MadtEntry.ent1?, MadtEntry.ent2?,
      MadtEntry.ent4?, MadtEntry.base?]
  | lapicAddr r a =>
    obtain ⟨_, h4⟩ := Mem.holds_append.1 h
    have hread : UInt32.ofNat (m.read32 (p + 4)) = a.toUInt32 := ofNat_read32_low h4
    simp [MadtEntry.type, hread, nmisRead, MadtEntry.ent0?, MadtEntry.ent1?, MadtEntry.ent2?,
      MadtEntry.ent4?, MadtEntry.base?]
  | other t body ht hb =>
    obtain ⟨k, hk⟩ : ∃ k, t.toNat = k + 6 := ⟨t.toNat - 6, by omega⟩
    rw [show (MadtEntry.other t body ht hb).type = k + 6 from hk]
    show d = ⟨d.lapics ++ [], d.ioapics ++ [], d.irqOverrides ++ [],
      d.nmiSources ++ nmisRead m p [.other t body ht hb], d.lintSources ++ [], d.lapicBase⟩
    simp [nmisRead, MadtEntry.type, hk]

theorem after_cons (d : Lists) (p : ℕ) (e : MadtEntry) (es : List MadtEntry) :
    (d.after m p [e]).after m (p + e.encode.length) es = d.after m p (e :: es) := by
  unfold Lists.after
  simp only [nmisRead, List.append_nil, List.append_assoc, ← List.filterMap_append,
    List.singleton_append, Lists.mk.injEq, true_and]
  rw [List.filterMap_cons, List.filterMap_nil, List.filterMap_cons]
  cases e.base? with
  | none => rfl
  | some b => cases es.filterMap MadtEntry.base? <;> rfl

theorem encodeEntries_cons (e : MadtEntry) (es : List MadtEntry) :
    encodeEntries (e :: es) = e.encode ++ encodeEntries es := List.flatMap_cons

/-- **The walk over a table.** Every entry is kept in its array, in order. -/
theorem walk_encoded : ∀ (es : List MadtEntry) (p fuel : ℕ) (d : Lists),
    m.Holds p (encodeEntries es) → (∀ t < 5, d.count t + es.countP (fun e => e.type = t) ≤ 64) →
      es.length < fuel →
        (walk m fuel p (encodeEntries es).length d.toApic).result = .ok (d.after m p es).toApic := by
  intro es
  induction es with
  | nil =>
    intro p fuel d _ _ hf
    obtain ⟨fuel, rfl⟩ : ∃ k, fuel = k + 1 := ⟨fuel - 1, by omega⟩
    rw [walk, if_neg (by simp [encodeEntries])]
    simp [Lists.after, nmisRead]
  | cons e es ih =>
    intro p fuel d h hcount hf
    rw [List.length_cons] at hf
    obtain ⟨fuel, rfl⟩ : ∃ k, fuel = k + 1 := ⟨fuel - 1, by omega⟩
    rw [encodeEntries_cons, Mem.holds_append] at h
    obtain ⟨htype, hlength⟩ := header_of_holds h.1
    have hpos : 2 ≤ e.encode.length := by
      obtain ⟨_, body, hbody⟩ := encode_header e
      rw [hbody]
      simp
    have hroom : d.count (m.read8 p).toNat < 64 := by
      rw [htype]
      by_cases ht : e.type < 5
      · have := hcount e.type ht
        rw [List.countP_cons, decide_eq_true rfl, if_pos rfl] at this
        omega
      · obtain ⟨k, hk⟩ : ∃ k, e.type = k + 5 := ⟨e.type - 5, by omega⟩
        rw [hk]
        exact Nat.zero_lt_succ 63
    rw [encodeEntries_cons, List.length_append, walk, if_pos (by omega), entry_room hroom,
      push_of_holds h.1, hlength]
    show (walk m fuel (p + e.encode.length)
      (((e.encode.length + (encodeEntries es).length : ℕ) : ℤ) - (e.encode.length : ℕ))
      (d.after m p [e]).toApic).result = _
    rw [Nat.cast_add, add_sub_cancel_left, ih _ _ _ h.2 ?_ (by omega), after_cons]
    intro t ht
    have := hcount t ht
    rw [List.countP_cons] at this
    rw [← push_of_holds h.1, Lists.count_push, htype]
    simp only [ht, and_true]
    simp only [decide_eq_true_eq] at this
    omega

/-! ## Decoding -/

/-- An NMI source is read right where its flags are its interrupt, and the interrupt stands behind
it once more. -/
theorem nmisRead_iff {m : Mem} : ∀ {es : List MadtEntry} {p : ℕ}, m.Holds p (encodeEntries es) →
    ((nmisRead m p es).map (fun e => (e.flags, e.gsi)) = es.filterMap MadtEntry.nmi? ↔
      NmisReadRight m p es) := by
  intro es
  induction es with
  | nil => intro p _; exact iff_of_true rfl trivial
  | cons e es ih =>
    intro p h
    rw [encodeEntries_cons, Mem.holds_append] at h
    obtain ⟨he, hes⟩ := h
    rw [nmisRead, NmisReadRight, List.filterMap_cons, List.map_append]
    cases e with
    | nmiSource f g =>
      obtain ⟨_, h4⟩ := Mem.holds_append.1 he
      have hflags : (read3 m p).flags = g := ofNat_read32 (p := p + 4) h4
      have hgsi : (read3 m p).gsi = g ↔ m.read32 (p + 8) = g.toNat := by
        show UInt32.ofNat (m.read32 (p + 8)) = g ↔ _
        rw [← UInt32.toNat_inj, UInt32.toNat_ofNat_of_lt' (Mem.read32_lt _ _)]
      show ((read3 m p).flags, (read3 m p).gsi) :: _ = (f.toUInt32, g) :: _ ↔ _
      rw [List.cons.injEq, Prod.mk.injEq, hflags, hgsi]
      refine and_congr ⟨fun h f' g' heq => ?_, fun h => h f g rfl⟩ (ih hes)
      cases heq
      exact h
    | other t body ht hb =>
      have htype : (MadtEntry.other t body ht hb).type ≠ 3 := by
        show t.toNat ≠ 3
        omega
      rw [if_neg htype]
      refine (ih hes).trans ⟨fun h => ⟨fun f g heq => (by cases heq), h⟩, fun h => h.2⟩
    | _ => exact (ih hes).trans ⟨fun h => ⟨fun f g heq => (by cases heq), h⟩, fun h => h.2⟩

theorem length_filterMap_le {α : Type} {es : List MadtEntry} {t : ℕ} (f : MadtEntry → Option α)
    (hf : ∀ e, (f e).isSome = true → e.type = t) :
    (es.filterMap f).length ≤ es.countP (fun e => e.type = t) := by
  rw [List.length_filterMap_eq_countP]
  exact List.countP_mono_left fun e _ he => decide_eq_true (hf e he)

theorem length_nmisRead {m : Mem} : ∀ {es : List MadtEntry} {p : ℕ},
    (nmisRead m p es).length = es.countP (fun e => e.type = 3) := by
  intro es
  induction es with
  | nil => intro p; rfl
  | cons e es ih =>
    intro p
    rw [nmisRead, List.length_append, ih, List.countP_cons, Nat.add_comm]
    by_cases h : e.type = 3 <;> simp [h]

/-- A table with at most 64 entries of a type is small. -/
theorem length_encodeEntries_le {es : List MadtEntry}
    (h : ∀ t, es.countP (fun e => e.type = t) ≤ 64) :
    (encodeEntries es).length ≤ 255 * 16384 := by
  have hentries : (encodeEntries es).length ≤ 255 * es.length := by
    clear h
    induction es with
    | nil => exact Nat.zero_le _
    | cons e es ih =>
      have := (encode_header e).1.2
      rw [encodeEntries_cons, List.length_append, List.length_cons]
      omega
  have hsub : (es.map MadtEntry.type).toFinset ⊆ Finset.range 256 := by
    intro t ht
    rw [List.mem_toFinset, List.mem_map] at ht
    obtain ⟨e, _, rfl⟩ := ht
    exact Finset.mem_range.2 (encode_header e).1.1
  have hcount : ∀ t ∈ (es.map MadtEntry.type).toFinset, (es.map MadtEntry.type).count t ≤ 64 := by
    intro t _
    rw [List.count, List.countP_map]
    refine le_trans (List.countP_mono_left fun e _ he => ?_) (h t)
    simpa using he
  have hcard := Finset.card_le_card hsub
  rw [Finset.card_range] at hcard
  have hlen : es.length ≤ (es.map MadtEntry.type).toFinset.card * 64 := by
    calc es.length = (es.map MadtEntry.type).length := (List.length_map _).symm
      _ = ∑ t ∈ (es.map MadtEntry.type).toFinset, (es.map MadtEntry.type).count t :=
        (List.sum_toFinset_count_eq_length _).symm
      _ ≤ (es.map MadtEntry.type).toFinset.card * 64 := by
        rw [← smul_eq_mul]
        exact Finset.sum_le_card_nsmul _ _ _ hcount
  omega

section

variable {m : Mem} {madt : ℕ} {base : UInt32} {es : List MadtEntry}

theorem init_encoded (hmadt : madt ≠ 0) (h : MadtAt m madt base es)
    (hkinds : ∀ t, es.countP (fun e => e.type = t) ≤ 64) {fuel : ℕ} (hf : es.length < fuel) :
    (init fuel m madt new).result = .ok ((lists m madt 0).after m (madt + 44) es).toApic := by
  have hsmall := length_encodeEntries_le hkinds
  have hlen := h.length
  rw [init_result hmadt]
  unfold entries toInt32
  rw [hlen, Word32.sub_eq (by omega) (by omega), if_pos (by omega), Nat.add_sub_cancel_left]
  refine walk_encoded es _ fuel _ h.entries (fun t ht => ?_) hf
  rw [count_lists ht]
  exact (Nat.zero_add _).le.trans (hkinds t)

theorem after_decodesOthers (h : MadtAt m madt base es)
    (hkinds : ∀ t, es.countP (fun e => e.type = t) ≤ 64) :
    ((lists m madt 0).after m (madt + 44) es).toApic.DecodesOthers base es := by
  have hbase : (lists m madt 0).lapicBase = base := by
    show UInt32.ofNat (m.read32 (madt + 36)) = base
    rw [h.base, UInt32.ofNat_toNat]
  have h0 : ∀ e : MadtEntry, e.ent0?.isSome = true → e.type = 0 := by
    intro e he
    cases e <;> first | rfl | cases he
  have h1 : ∀ e : MadtEntry, e.ent1?.isSome = true → e.type = 1 := by
    intro e he
    cases e <;> first | rfl | cases he
  have h2 : ∀ e : MadtEntry, e.ent2?.isSome = true → e.type = 2 := by
    intro e he
    cases e <;> first | rfl | cases he
  have h4 : ∀ e : MadtEntry, e.ent4?.isSome = true → e.type = 4 := by
    intro e he
    cases e <;> first | rfl | cases he
  exact ⟨StaticArray.items_ofList ((length_filterMap_le _ h0).trans (hkinds 0)),
    StaticArray.items_ofList ((length_filterMap_le _ h1).trans (hkinds 1)),
    StaticArray.items_ofList ((length_filterMap_le _ h2).trans (hkinds 2)),
    StaticArray.items_ofList ((length_filterMap_le _ h4).trans (hkinds 4)),
    by rw [← hbase]; rfl⟩

theorem after_decodes_iff (h : MadtAt m madt base es)
    (hkinds : ∀ t, es.countP (fun e => e.type = t) ≤ 64) :
    ((lists m madt 0).after m (madt + 44) es).toApic.Decodes base es ↔
      NmisReadRight m (madt + 44) es := by
  have hnmis : ((lists m madt 0).after m (madt + 44) es).toApic.nmiSources.items =
      nmisRead m (madt + 44) es := by
    refine StaticArray.items_ofList (?_ : (nmisRead m (madt + 44) es).length ≤ 64)
    rw [length_nmisRead]
    exact hkinds 3
  rw [← nmisRead_iff h.entries, ← hnmis]
  exact ⟨fun hd => hd.nmiSources, fun hn => ⟨after_decodesOthers h hkinds, hn⟩⟩

end

/-- **Decoding.** The walk over a table as the specification writes it ends, and all entries but
the NMI sources are found in their arrays, in order, with their fields; the NMI sources are when
each of them is read right in spite of the layout of `ent3`. -/
theorem decodes_iff (m : Mem) (madt : ℕ) (base : UInt32) (es : List MadtEntry) (hmadt : madt ≠ 0)
    (h : MadtAt m madt base es) (hkinds : ∀ t, es.countP (fun e => e.type = t) ≤ 64) :
    ∃ s, (∀ fuel, es.length < fuel → (init fuel m madt new).result = .ok s) ∧
      s.DecodesOthers base es ∧ (s.Decodes base es ↔ NmisReadRight m (madt + 44) es) :=
  ⟨_, fun _ hf => init_encoded hmadt h hkinds hf, after_decodesOthers h hkinds,
    after_decodes_iff h hkinds⟩

/-- Few entries: few of each type. -/
theorem countP_type_le {es : List MadtEntry} (h : es.length ≤ 64) (t : ℕ) :
    es.countP (fun e => e.type = t) ≤ 64 :=
  List.countP_le_length.trans h

/-- A processor, an I/O APIC, the timer at its input 2, and the NMI of all processors. -/
def sampleEntries : List MadtEntry :=
  [.lapic 0 0 1, .ioapic 1 0 0xFEC00000 0, .irqOverride 0 0 2 0, .lapicNmi 0xFF 5 1]

theorem decodes_sample : ∃ s, (∀ fuel, 4 < fuel →
      (init fuel (tableMem 193 (encodeEntries sampleEntries)) 4096 new).result = .ok s) ∧
    s.Decodes 0xFEE00000 sampleEntries := by
  have hat : MadtAt (tableMem 193 (encodeEntries sampleEntries)) 4096 0xFEE00000 sampleEntries :=
    ⟨by decide, by decide, by decide⟩
  obtain ⟨s, hs, _, hd⟩ := decodes_iff _ 4096 0xFEE00000 sampleEntries (by decide) hat
    (countP_type_le (by decide))
  exact ⟨s, hs, hd.2 ⟨fun _ _ h => (by cases h), fun _ _ h => (by cases h),
    fun _ _ h => (by cases h), fun _ _ h => (by cases h), trivial⟩⟩

/-- The NMI source of interrupt 2 is taken for one with flags 2 and the interrupt that stands
behind the table. -/
theorem nmi_source_misread : ∃ m madt base es s, madt ≠ 0 ∧
    validateChecksum m madt (tableLength m madt) = true ∧ MadtAt m madt base es ∧
    (∀ t, es.countP (fun e => e.type = t) ≤ 64) ∧
    (∀ fuel, es.length < fuel → (init fuel m madt new).result = .ok s) ∧ ¬ s.Decodes base es := by
  have hat : MadtAt (tableMem 194 [3, 8, 0, 0, 2, 0, 0, 0]) 4096 0xFEE00000 [.nmiSource 0 2] :=
    ⟨by decide, by decide, by decide⟩
  refine ⟨_, 4096, 0xFEE00000, [.nmiSource 0 2], _, by decide, by decide, hat,
    countP_type_le (by decide),
    fun fuel hf => init_encoded (by decide) hat (countP_type_le (by decide)) hf,
    fun hd => ?_⟩
  have := (((after_decodes_iff hat (countP_type_le (by decide))).1 hd).1 0 2 rfl).1
  exact absurd this (by decide)

end

end Apic

end Ospp
