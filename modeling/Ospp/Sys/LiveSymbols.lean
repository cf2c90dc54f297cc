import Ospp.Sys.LiveRelocation
import Ospp.Sys.Modules

/-!
# Symbols by name in live memory

`find_symbol` reads the symbol and string tables through the page tables. Where no access faults it
gives what `Linker` gives for the object as memory holds it. It hands the address of an entry around
and takes an entry at address 0 for null, so none may lie there.
-/

namespace Ospp

namespace LiveLinker

open Linker

section

variable {m : ModuleSpace} {o : Object} {L : Layout} {p a w : ℕ} {name : CString}

theorem readByte_value {b : UInt8} (h : m.mm.vmm.readByte (p % 4294967296) = .ok b) :
    b = Mem.read8 (bytesOf m) p :=
  Except.ok.inj (h.symm.trans (known_of_read rfl h))

theorem read16_value (h : m.mm.vmm.read16 (p % 4294967296) = .ok w) :
    w = (Mem.read8 (bytesOf m) p).toNat + 256 * (Mem.read8 (bytesOf m) (p + 1)).toNat :=
  Except.ok.inj (h.symm.trans (read16_known (known_of_read16 (fun _ _ => rfl) h)))

theorem strcmp_value {c : ℤ} : ∀ {s : List UInt8} {p : ℕ},
    LiveLinker.strcmp m.mm.vmm (p % 4294967296) s = .ok c → c = Ospp.strcmp (bytesOf m) p s := by
  intro s
  induction s with
  | nil =>
    intro p hr
    rw [LiveLinker.strcmp, K.bind_eq_ok] at hr
    obtain ⟨b, hb, hr⟩ := hr
    cases hr
    rw [readByte_value hb]
    rfl
  | cons b s ih =>
    intro p hr
    rw [LiveLinker.strcmp, K.bind_eq_ok] at hr
    obtain ⟨c', hc, hr⟩ := hr
    have hval := readByte_value hc
    subst hval
    rw [Ospp.strcmp]
    by_cases hb : Mem.read8 (bytesOf m) p ≠ 0 ∧ Mem.read8 (bytesOf m) p = b
    · rw [if_pos hb, add_mod] at hr
      rw [if_pos hb]
      exact ih hr
    · rw [if_neg hb] at hr
      rw [if_neg hb]
      cases hr
      rfl

/-- The test of `_find_symbol` on the symbol at `p`. -/
def namedAt (m : ModuleSpace) (strtab : ℕ) (name : CString) (p : ℕ) : Bool :=
  (symbolIn (bytesOf m) p).name ≠ 0 ∧
    Ospp.strcmp (bytesOf m) (Word32.add strtab (symbolIn (bytesOf m) p).name) name.bytes = 0

/-- The loop of `_find_symbol` finds what memory holds. -/
theorem findNamed_value {strtab symtab : ℕ} {P : ℕ → Bool}
    (hP : ∀ i, P i = namedAt m strtab name (symtab + 16 * i)) : ∀ {is : List ℕ},
    findNamed m.mm.vmm strtab symtab name.bytes is = .ok a →
      (is.find? P = none ∧ a = 0) ∨
        ∃ i, is.find? P = some i ∧ a = (symtab + 16 * i) % 4294967296 := by
  intro is
  induction is with
  | nil =>
    intro hr
    cases hr
    exact Or.inl ⟨rfl, rfl⟩
  | cons i is ih =>
    intro hr
    rw [findNamed, K.bind_eq_ok] at hr
    obtain ⟨n, hn, hr⟩ := hr
    obtain rfl : n = (symbolIn (bytesOf m) (symtab + 16 * i)).name :=
      read32_value (fun _ _ => rfl) hn
    by_cases h0 : (symbolIn (bytesOf m) (symtab + 16 * i)).name = 0
    · have hnot : ¬ P i = true := fun h => (of_decide_eq_true ((hP i).symm.trans h)).1 h0
      rw [if_pos h0] at hr
      rw [List.find?_cons_of_neg hnot]
      exact ih hr
    rw [if_neg h0, K.bind_eq_ok] at hr
    obtain ⟨c, hc, hr⟩ := hr
    have hlt : Word32.add strtab (symbolIn (bytesOf m) (symtab + 16 * i)).name < 4294967296 :=
      Nat.mod_lt _ (by norm_num)
    rw [← Nat.mod_eq_of_lt hlt] at hc
    have hval := strcmp_value hc
    by_cases hc0 : c = 0
    · have hnamed : P i = true := (hP i).trans (decide_eq_true ⟨h0, by rw [← hval, hc0]⟩)
      rw [if_pos hc0] at hr
      cases hr
      rw [List.find?_cons_of_pos hnamed]
      exact Or.inr ⟨i, rfl, rfl⟩
    · have hnot : ¬ P i = true := fun h =>
        hc0 (by rw [hval]; exact (of_decide_eq_true ((hP i).symm.trans h)).2)
      rw [if_neg hc0] at hr
      rw [List.find?_cons_of_neg hnot]
      exact ih hr

/-- No entry of the symbol table lies at address 0, which the linker would take for null. -/
def NoNullEntry (o : Object) (sym : UInt32) : Prop :=
  ∀ i < (o.sectionHeader sym.toNat).size / 16,
    (o.headerOffset (o.sectionHeader sym.toNat).offset + 16 * i) % 4294967296 ≠ 0

/-- What a search for a symbol comes to: null and none, or the address and the content of one
entry. -/
def Found (m : ModuleSpace) (a : ℕ) (found : Option Symbol) : Prop :=
  (a = 0 ∧ found = none) ∨
    ∃ p, a = p % 4294967296 ∧ a ≠ 0 ∧ found = some (symbolIn (bytesOf m) p)

/-- `_find_symbol` finds what memory holds. -/
theorem findSymbolIn_value {sym str : UInt32} (hnull : NoNullEntry (heldIn m L).obj sym)
    (hr : LiveLinker.findSymbolIn L.obj m.mm.vmm name sym str = .ok a) :
    Found m a ((heldIn m L).obj.findSymbolIn name sym str) := by
  unfold LiveLinker.findSymbolIn at hr
  unfold Object.findSymbolIn
  by_cases h0 : sym = 0 ∨ str = 0
  · rw [if_pos h0] at hr
    cases hr
    rw [if_pos h0]
    exact Or.inl ⟨rfl, rfl⟩
  rw [if_neg h0] at hr
  rw [if_neg h0]
  simp only [K.bind_eq_ok] at hr
  obtain ⟨strOff, h₁, symOff, h₂, size, h₃, hr⟩ := hr
  obtain rfl : strOff = ((heldIn m L).obj.sectionHeader str.toNat).offset :=
    read32_value (fun _ _ => rfl) h₁
  obtain rfl : symOff = ((heldIn m L).obj.sectionHeader sym.toNat).offset :=
    read32_value (fun _ _ => rfl) h₂
  obtain rfl : size = ((heldIn m L).obj.sectionHeader sym.toNat).size :=
    read32_value (fun _ _ => rfl) h₃
  unfold Object.symbols
  rw [List.find?_map]
  rcases findNamed_value (P := (heldIn m L).obj.isNamed str name ∘ fun i =>
      symbolIn (bytesOf m) ((heldIn m L).obj.headerOffset
        ((heldIn m L).obj.sectionHeader sym.toNat).offset + 16 * i)) (fun i => rfl) hr
    with ⟨hnone, rfl⟩ | ⟨i, hsome, rfl⟩
  · exact Or.inl ⟨rfl, congrArg (Option.map _) hnone⟩
  · have hi := List.mem_range.1 (List.mem_of_find?_eq_some hsome)
    exact Or.inr ⟨_, rfl, hnull i hi, congrArg (Option.map _) hsome⟩

/-- `Object::find_symbol` finds what memory holds. -/
theorem objectSymbol_value (hdyn : NoNullEntry (heldIn m L).obj L.obj.dynsym)
    (hsym : NoNullEntry (heldIn m L).obj L.obj.symtab)
    (hr : LiveLinker.objectSymbol L.obj m.mm.vmm name = .ok a) :
    Found m a ((heldIn m L).obj.findSymbol name) := by
  unfold LiveLinker.objectSymbol at hr
  rw [K.bind_eq_ok] at hr
  obtain ⟨b, hb, hr⟩ := hr
  rcases findSymbolIn_value hdyn hb with ⟨rfl, hnone⟩ | ⟨p, rfl, hne, hsome⟩
  · rw [if_neg (not_not.2 rfl)] at hr
    rw [Object.findSymbol_of_static hnone]
    exact findSymbolIn_value hsym hr
  · rw [if_pos hne] at hr
    cases hr
    rw [Object.findSymbol_of_dynamic hsome]
    exact Or.inr ⟨p, rfl, hne, rfl⟩

/-- **Symbols by name in live memory**: `find_symbol` gives what it gives for the object as memory
holds it, 0 for null. -/
theorem findSymbol_value (hdyn : NoNullEntry (heldIn m L).obj L.obj.dynsym)
    (hsym : NoNullEntry (heldIn m L).obj L.obj.symtab)
    (hr : LiveLinker.findSymbol L m.mm.vmm name = .ok a) :
    a = ((heldIn m L).findSymbol name).getD 0 := by
  unfold LiveLinker.findSymbol at hr
  rw [K.bind_eq_ok] at hr
  obtain ⟨b, hb, hr⟩ := hr
  unfold Linker.Layout.findSymbol
  rcases objectSymbol_value hdyn hsym hb with ⟨rfl, hnone⟩ | ⟨p, rfl, hne, hsome⟩
  · cases hr
    rw [hnone]
    rfl
  rw [hsome, Option.bind_some]
  unfold Linker.Layout.symbolAddr
  rw [if_neg hne, K.bind_eq_ok] at hr
  obtain ⟨shndx, hshndx, hr⟩ := hr
  rw [add_mod] at hshndx
  obtain rfl : shndx = (symbolIn (bytesOf m) p).shndx := read16_value hshndx
  by_cases hu : (symbolIn (bytesOf m) p).shndx = shnUndef
  · rw [if_pos hu] at hr ⊢
    cases hr
    rfl
  rw [if_neg hu] at hr ⊢
  by_cases hc : (symbolIn (bytesOf m) p).shndx = shnCommon
  · rw [if_pos hc] at hr ⊢
    cases hr
    rfl
  rw [if_neg hc] at hr ⊢
  by_cases hn : L.obj.secHdrsNum.toNat ≤ (symbolIn (bytesOf m) p).shndx
  · rw [if_pos hn] at hr
    rw [if_pos (show (heldIn m L).obj.secHdrsNum.toNat ≤ _ from hn)]
    cases hr
    rfl
  rw [if_neg hn] at hr
  rw [if_neg (show ¬ (heldIn m L).obj.secHdrsNum.toNat ≤ _ from hn),
    show (heldIn m L).map = L.map from rfl]
  cases hmap : L.map (symbolIn (bytesOf m) p).shndx with
  | none =>
    rw [hmap] at hr
    cases hr
    rfl
  | some e =>
    obtain ⟨wh, sec⟩ := e
    rw [hmap] at hr
    obtain ⟨value, hvalue, hr⟩ := K.bind_eq_ok.1 hr
    rw [add_mod] at hvalue
    obtain rfl : value = (symbolIn (bytesOf m) p).value := read32_value (fun _ _ => rfl) hvalue
    cases hr
    rfl

end

end LiveLinker

end Ospp
