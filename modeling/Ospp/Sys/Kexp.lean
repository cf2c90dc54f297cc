import Ospp.Klib.CString
import Ospp.Sys.Linker

/-!
# Exported symbols

`sys/kexp.hpp` and `sys/kexp.cpp`: the table that `EXPORT_SYMBOL` fills, one entry for each
exported name, and `lookup`, which finds the kernel symbol for an undefined symbol of a module.

An entry keeps the hash of the name and not the name: 64 bits of an FNV hash folded to 32. So
`lookup` answers with the first entry that has the hash of the name it is given.
`lookup_exact_iff` says for which names that is the entry exported under the name.
-/

namespace Ospp

/-! ## The table -/

/-- A round of the hash. -/
def hashStep (h : UInt64) (b : UInt8) : UInt64 := (h ^^^ b.toUInt64) * 1099511628211

/-- The 64 bits of a hash folded to 32. -/
def hashFold (h : UInt64) : UInt32 := (h ^^^ (h >>> 32)).toUInt32

/-- `hash_fold32_cstr` of a literal, which the compiler evaluates. -/
def CString.hash (s : CString) : UInt32 := hashFold (s.bytes.foldl hashStep 1469598103934665603)

/-- `EXPORT_SYMBOL(name, sym)`: a name and the address of the symbol. -/
structure Export where
  name : CString
  addr : UInt32

/-- The entry an export puts into the table. -/
def Export.entry (e : Export) : KexpEntry := ⟨e.name.hash.toNat, e.addr.toNat⟩

/-- The table between `__kexp_start` and `__kexp_end`. -/
def kexpTable (es : List Export) : List KexpEntry := es.map Export.entry

/-- `kexp::lookup`, with the index of the entry for the pointer to it. -/
def kexpLookupAt (tab : List KexpEntry) (m : Mem) (name : ℕ) : K (Option ℕ) :=
  if name = 0 then .ok none
  else do
    let nh ← hashFold32Cstr m 4294967296 name 1469598103934665603
    return tab.findIdx? fun e => e.nameHash == nh.toNat

/-- The entry at the index is the one the linker reads. -/
theorem kexpLookup_eq (tab : List KexpEntry) (m : Mem) (name : ℕ) :
    kexpLookup tab m name = (kexpLookupAt tab m name).map fun i => i.bind fun i => tab[i]? := by
  unfold kexpLookup kexpLookupAt
  by_cases h : name = 0
  · rw [if_pos h, if_pos h]
    rfl
  · rw [if_neg h, if_neg h]
    cases hashFold32Cstr m 4294967296 name 1469598103934665603 with
    | error e => rfl
    | ok nh =>
      show Except.ok _ = Except.ok _
      rw [List.find?_eq_bind_findIdx?_getElem?]

/-! ## Lookups -/

/-- The loop over a string in memory computes the hash of its literal. -/
theorem hashFold32Cstr_eq {m : Mem} : ∀ {s : List UInt8} {fuel a : ℕ} {h : UInt64},
    HoldsString m a s → 0 ∉ s → s.length < fuel →
      hashFold32Cstr m fuel a h = .ok (hashFold (s.foldl hashStep h)) := by
  intro s
  induction s with
  | nil =>
    intro fuel a h hs _ hf
    obtain ⟨fuel, rfl⟩ : ∃ n, fuel = n + 1 := ⟨fuel - 1, by rw [List.length_nil] at hf; omega⟩
    rw [hashFold32Cstr]
    exact if_pos hs.1
  | cons b s ih =>
    intro fuel a h hs hnul hf
    rw [List.length_cons] at hf
    obtain ⟨fuel, rfl⟩ : ∃ n, fuel = n + 1 := ⟨fuel - 1, by omega⟩
    rw [List.mem_cons, not_or] at hnul
    rw [hashFold32Cstr, hs.1, if_neg (Ne.symm hnul.1), ih hs.2 hnul.2 (by omega)]
    rfl

/-- `lookup` finds the first entry with the hash of the name. -/
theorem kexpLookupAt_eq {es : List Export} {m : Mem} {a : ℕ} {s : CString} (ha : a ≠ 0)
    (hs : HoldsString m a s.bytes) :
    kexpLookupAt (kexpTable es) m a = .ok (es.findIdx? fun e => e.name.hash == s.hash) := by
  unfold kexpLookupAt
  rw [if_neg ha, hashFold32Cstr_eq hs s.noNul hs.length_lt]
  show Except.ok _ = Except.ok _
  unfold kexpTable
  rw [List.findIdx?_map]
  congr 2
  funext e
  have : e.name.hash.toNat = s.hash.toNat ↔ e.name.hash = s.hash := UInt32.toNat_inj
  show (e.name.hash.toNat == s.hash.toNat) = (e.name.hash == s.hash)
  rw [Bool.eq_iff_iff, beq_iff_eq, beq_iff_eq, this]

/-- Searching with a weaker test finds the same element when, and only when, every element that
passes it stands behind one that passes the stronger test, or passes that itself. -/
theorem findIdx?_weaken_iff {α : Type} {p q : α → Bool} (hpq : ∀ x, p x = true → q x = true) :
    ∀ xs : List α, xs.findIdx? q = xs.findIdx? p ↔
      ∀ (i : ℕ) (x : α), xs[i]? = some x → q x = true →
        p x = true ∨ ∃ k < i, ∃ y : α, xs[k]? = some y ∧ p y = true := by
  intro xs
  induction xs with
  | nil => simp
  | cons x xs ih =>
    rw [List.findIdx?_cons, List.findIdx?_cons]
    by_cases hp : p x = true
    · rw [if_pos hp, if_pos (hpq x hp)]
      refine iff_of_true rfl fun i y hy _ => ?_
      cases i with
      | zero =>
        cases hy
        exact Or.inl hp
      | succ i => exact Or.inr ⟨0, by omega, x, rfl, hp⟩
    rw [if_neg hp]
    by_cases hq : q x = true
    · rw [if_pos hq]
      refine iff_of_false (fun h => ?_) fun h => ?_
      · cases hx : xs.findIdx? p with
        | none => rw [hx] at h; cases h
        | some k => rw [hx] at h; cases h
      · rcases h 0 x rfl hq with hp' | ⟨k, hk, _⟩
        · exact hp hp'
        · omega
    · rw [if_neg hq, (Option.map_injective (Nat.succ_injective)).eq_iff, ih]
      constructor
      · intro h i y hy hqy
        cases i with
        | zero =>
          cases hy
          exact absurd hqy hq
        | succ i =>
          rcases h i y hy hqy with hpy | ⟨k, hk, z, hz, hpz⟩
          · exact Or.inl hpy
          · exact Or.inr ⟨k + 1, by omega, z, hz, hpz⟩
      · intro h i y hy hqy
        rcases h (i + 1) y hy hqy with hpy | ⟨k, hk, z, hz, hpz⟩
        · exact Or.inl hpy
        · cases k with
          | zero =>
            cases hz
            exact absurd hpz hp
          | succ k => exact Or.inr ⟨k, by omega, z, hz, hpz⟩

/-- The index of the entry exported under a name. -/
def exportedAt (es : List Export) (s : CString) : Option ℕ := es.findIdx? fun e => e.name = s

/-- Every export whose name has the hash of `s` is the one named `s`, or stands behind it. -/
def Unshadowed (es : List Export) (s : CString) : Prop :=
  ∀ (i : ℕ) (e : Export), es[i]? = some e → e.name.hash = s.hash →
    e.name = s ∨ ∃ k < i, ∃ e' : Export, es[k]? = some e' ∧ e'.name = s

/-- **Lookups.** `lookup` returns the first entry whose name has the hash of the given one. This is
the entry exported under the name, or nothing when there is none, exactly for the names that no
export of another name shadows. -/
theorem lookup_exact_iff (es : List Export) (m : Mem) (a : ℕ) (s : CString)
    (ha : a ≠ 0) (hs : HoldsString m a s.bytes) :
    kexpLookupAt (kexpTable es) m a = .ok (es.findIdx? fun e => e.name.hash == s.hash) ∧
      (kexpLookupAt (kexpTable es) m a = .ok (exportedAt es s) ↔ Unshadowed es s) := by
  refine ⟨kexpLookupAt_eq ha hs, ?_⟩
  have hweak := findIdx?_weaken_iff (p := fun e : Export => decide (e.name = s))
    (q := fun e => e.name.hash == s.hash) (fun e he => by
      rw [of_decide_eq_true he, beq_iff_eq]) es
  rw [kexpLookupAt_eq ha hs, Except.ok.injEq]
  unfold exportedAt Unshadowed
  simpa only [decide_eq_true_eq, beq_iff_eq] using hweak

/-- The name of the only export of the kernel. -/
def apiName : CString := ⟨[97, 112, 105], by decide⟩

/-- The string `djpcnzc`. -/
def otherName : CString := ⟨[100, 106, 112, 99, 110, 122, 99], by decide⟩

/-- A memory that holds nothing but a string, from address 4096 on. -/
def stringMem (s : CString) : Mem := fun a => if 4096 ≤ a then s.bytes.getD (a - 4096) 0 else 0

theorem lookup_exact_api : HoldsString (stringMem apiName) 4096 apiName.bytes ∧
    kexpLookupAt (kexpTable [⟨apiName, 0x123000⟩]) (stringMem apiName) 4096 = .ok (some 0) := by
  have hs : HoldsString (stringMem apiName) 4096 apiName.bytes := by
    decide
  refine ⟨hs, ?_⟩
  rw [(lookup_exact_iff [⟨apiName, 0x123000⟩] (stringMem apiName) 4096 apiName (by decide) hs).1]
  decide

/-- `djpcnzc` has the hash of `api`: an undefined symbol of this name is bound to the kernel's
`api`. -/
theorem other_name_finds_api : ∃ es m a s, (es.map Export.name).Nodup ∧ a ≠ 0 ∧
    HoldsString m a s.bytes ∧ exportedAt es s = none ∧
    kexpLookupAt (kexpTable es) m a = .ok (some 0) := by
  have hs : HoldsString (stringMem otherName) 4096 otherName.bytes := by
    decide
  refine ⟨[⟨apiName, 0x123000⟩], stringMem otherName, 4096, otherName, by decide, by decide, hs,
    by decide, ?_⟩
  rw [kexpLookupAt_eq (by decide) hs]
  decide

end Ospp
