import Ospp.Sys.LinkerRelocation
import Ospp.Sys.LiveRestore

/-!
# Relocations in live memory

`stage2` reads section headers, entries, symbols and names where they lie, and writes words where
the entries say. As long as it writes none of the bytes that it reads of the object (`Untouched`),
every read gives what memory held before `stage2`, and the entries can be taken from there: the two
loops are one loop over the located entries, and each of them does what `Linker.relocate` does with
the object of that moment (`heldIn`).

Memory is what counts, not addresses: the identity window may lead to the frame of a page of the
module window.
-/

namespace Ospp

namespace LiveLinker

open Linker Trans

/-! ## Statements -/

/-- `stage0` and both calls of `stage1` succeed. The relocations find the memory `m` and the layout
`L`. -/
def Staged (s : LiveLinker) (calls : LoadCalls) (o : Object) (m : ModuleSpace) (L : Layout) :
    Prop :=
  ∃ m₀ e₀ P m₁ L₁, stage0 calls s.linker.space s.heapEnd (Layout.new o) = .ok (m₀, e₀, P, true) ∧
    (stage1 m₀ P .rx).result = .ok (m₁, L₁, true) ∧ (stage1 m₁ L₁ .rw).result = .ok (m, L, true)

/-- The layout with its object as memory holds it. -/
def heldIn (m : ModuleSpace) (L : Layout) : Layout :=
  { L with obj := { L.obj with image := bytesOf m } }

/-- An entry of a relocation section, by its address. -/
structure Located where
  which : Which
  sec : Section
  addr : ℕ

/-- The entries of a section header, if it is one that `stage2` goes through. -/
def locatedIn (L : Layout) (h : SectionHeader) : List Located :=
  match Linker.relTarget L h with
  | .apply wh sec => (List.range (h.size / 8)).map fun j =>
      ⟨wh, sec, (L.obj.headerOffset h.offset + 8 * j) % 4294967296⟩
  | _ => []

/-- The entries that `stage2` goes through, in order. -/
def located (L : Layout) : List Located := L.obj.secHdrs.flatMap (locatedIn L)

/-- The entry at the address. -/
def Located.patch (L : Layout) (e : Located) : Patch :=
  ⟨e.which, e.sec, ⟨L.obj.image.read32 e.addr, L.obj.image.read32 (e.addr + 4)⟩⟩

/-- Located entries one after the other. -/
def relocateEach (tab : List KexpEntry) (L : Layout) : List Located → ModuleSpace →
    Traced Event Halt (ModuleSpace × Bool)
  | [], m => pure (m, true)
  | e :: es, m => do
    let (m, ok) ← relocate tab L e.which e.sec e.addr m
    if ok then relocateEach tab L es m else pure (m, false)

/-- The `n` bytes from `p` on. -/
def Bytes (p n x : ℕ) : Prop := ∃ k < n, x = (p + k) % 4294967296

/-- The bytes of a string, up to its end. -/
def StringBytes (M : Mem) (p x : ℕ) : Prop :=
  ∃ k, (∀ j < k, M.read8 (p + j) ≠ 0) ∧ x = (p + k) % 4294967296

/-- The symbol at an address. -/
def symbolIn (M : Mem) (p : ℕ) : Symbol where
  name := M.read32 p
  value := M.read32 (p + 4)
  shndx := (M.read8 (p + 14)).toNat + 256 * (M.read8 (p + 15)).toNat

/-- The bytes that are read for the symbol at `p`. -/
inductive SymbolReads (L : Layout) (p x : ℕ) : Prop where
  | shndx (h : Bytes (p + 14) 2 x)
  | name (hu : (symbolIn L.obj.image p).shndx = shnUndef) (h : Bytes p 4 x)
  | value (hu : (symbolIn L.obj.image p).shndx ≠ shnUndef)
      (hc : (symbolIn L.obj.image p).shndx ≠ shnCommon) (h : Bytes (p + 4) 4 x)
  | strtab (hu : (symbolIn L.obj.image p).shndx = shnUndef)
      (h : Bytes (L.obj.strtab.toNat + 16) 4 x)
  | string (hu : (symbolIn L.obj.image p).shndx = shnUndef)
      (hn : symbolName L (symbolIn L.obj.image p) ≠ 0)
      (h : StringBytes L.obj.image (symbolName L (symbolIn L.obj.image p)) x)

/-- The address of the symbol of an entry. -/
def symbolAt (L : Layout) (e : Located) : ℕ :=
  L.obj.headerOffset (L.obj.sectionHeader L.obj.symtab.toNat).offset + 16 * (e.patch L).rel.sym

/-- The bytes that are read for an entry. -/
inductive EntryReads (L : Layout) (e : Located) (x : ℕ) : Prop where
  | entry (h : Bytes e.addr 8 x)
  | symtab (h : Bytes (L.obj.symtab.toNat + 16) 4 x)
  | symbol (h : SymbolReads L (symbolAt L e) x)

/-- The address of a section header. -/
def headerAt (L : Layout) (i : ℕ) : ℕ := L.obj.headerOffset L.obj.shoff.toNat + 40 * i

/-- The bytes that are read of the section header at `p`. -/
inductive HeaderReads (L : Layout) (p x : ℕ) : Prop where
  | type (h : Bytes (p + 4) 4 x)
  | info (ht : (L.obj.sectionHeader p).type = shtRel) (h : Bytes (p + 28) 4 x)
  | offset (ht : (L.obj.sectionHeader p).type = shtRel)
      (hm : L.map ((L.obj.sectionHeader p).info % 65536) ≠ none) (h : Bytes (p + 16) 4 x)
  | size (ht : (L.obj.sectionHeader p).type = shtRel)
      (hm : L.map ((L.obj.sectionHeader p).info % 65536) ≠ none) (h : Bytes (p + 20) 4 x)

/-- The bytes of the object that `stage2` reads. -/
inductive ObjectReads (L : Layout) (x : ℕ) : Prop where
  | header {i : ℕ} (hi : i < L.obj.secHdrsNum.toNat) (h : HeaderReads L (headerAt L i) x)
  | entry {e : Located} (he : e ∈ located L) (h : EntryReads L e x)

/-- No word that is patched shares a byte of memory with what is read of the object. -/
def Untouched (E : ℕ → ℕ → Prop) (m : ModuleSpace) (L : Layout) : Prop :=
  ∀ e ∈ entries L L.obj.secHdrs, (∃ S, Patches E L e S) → ∀ k < 4, ∀ x, ObjectReads L x →
    m.mm.vmm.translate x ≠ m.mm.vmm.translate (e.addr L + k)

/-! ## Reading what memory held -/

section

variable {res ext own : ℕ → Prop} {rs : List PageRun} {tab : List KexpEntry} {L : Layout}
  {wh : Which} {s : LiveLinker} {m m' m'' : ModuleSpace} {p a w : ℕ}

/-- The byte at `x` is read, and is what `m` holds. -/
def Known (m m' : ModuleSpace) (x : ℕ) : Prop := m'.mm.vmm.readByte x = .ok (bytesOf m x)

theorem known_of_read {b : UInt8} (h : m'.mm.vmm.readByte a = m.mm.vmm.readByte a)
    (hr : m'.mm.vmm.readByte a = .ok b) : Known m m' a := by
  unfold Known bytesOf
  rw [← h, hr]

theorem Bytes.of_lt {k n : ℕ} (hk : k < n) : Bytes p n ((p + k) % 4294967296) := ⟨k, hk, rfl⟩

theorem add_mod (p k : ℕ) : Word32.add (p % 4294967296) k = (p + k) % 4294967296 := by
  unfold Word32.add
  omega

/-- A word of known bytes. -/
theorem read32_known (h : ∀ x, Bytes p 4 x → Known m m' x) :
    m'.mm.vmm.read32 (p % 4294967296) = .ok (Mem.read32 (bytesOf m) p) := by
  have h0 := h _ (.of_lt (k := 0) (by norm_num))
  rw [Nat.add_zero] at h0
  unfold Vmm.read32
  rw [add_mod, add_mod, add_mod, show m'.mm.vmm.readByte _ = _ from h0,
    show m'.mm.vmm.readByte _ = _ from h _ (.of_lt (k := 1) (by norm_num)),
    show m'.mm.vmm.readByte _ = _ from h _ (.of_lt (k := 2) (by norm_num)),
    show m'.mm.vmm.readByte _ = _ from h _ (.of_lt (k := 3) (by norm_num))]
  rfl

theorem known_of_read32 (h : ∀ x, Bytes p 4 x → m'.mm.vmm.readByte x = m.mm.vmm.readByte x)
    (hr : m'.mm.vmm.read32 (p % 4294967296) = .ok w) : ∀ x, Bytes p 4 x → Known m m' x := by
  unfold Vmm.read32 at hr
  rw [add_mod, add_mod, add_mod] at hr
  simp only [K.bind_eq_ok] at hr
  obtain ⟨b₀, h₀, b₁, h₁, b₂, h₂, b₃, h₃, _⟩ := hr
  rintro x ⟨k, hk, rfl⟩
  interval_cases k
  · exact known_of_read (h _ (.of_lt (by norm_num))) (b := b₀) (by rw [Nat.add_zero]; exact h₀)
  · exact known_of_read (h _ (.of_lt (by norm_num))) h₁
  · exact known_of_read (h _ (.of_lt (by norm_num))) h₂
  · exact known_of_read (h _ (.of_lt (by norm_num))) h₃

/-- A word that is read as it was. -/
theorem read32_value (h : ∀ x, Bytes p 4 x → m'.mm.vmm.readByte x = m.mm.vmm.readByte x)
    (hr : m'.mm.vmm.read32 (p % 4294967296) = .ok w) : w = Mem.read32 (bytesOf m) p :=
  Except.ok.inj (hr.symm.trans (read32_known (known_of_read32 h hr)))

/-- Reads that do not depend on the state, up to those of the bytes `R`. -/
def Agree (m m' : ModuleSpace) (R : ℕ → Prop) : Prop :=
  ∀ x, R x → m'.mm.vmm.readByte x = m.mm.vmm.readByte x

/-! ## Symbols -/

theorem read16_known (h : ∀ x, Bytes p 2 x → Known m m' x) :
    m'.mm.vmm.read16 (p % 4294967296) = .ok ((Mem.read8 (bytesOf m) p).toNat +
      256 * (Mem.read8 (bytesOf m) (p + 1)).toNat) := by
  have h0 := h _ (.of_lt (k := 0) (by norm_num))
  rw [Nat.add_zero] at h0
  unfold Vmm.read16
  rw [add_mod, show m'.mm.vmm.readByte _ = _ from h0,
    show m'.mm.vmm.readByte _ = _ from h _ (.of_lt (k := 1) (by norm_num))]
  rfl

theorem known_of_read16 (h : ∀ x, Bytes p 2 x → m'.mm.vmm.readByte x = m.mm.vmm.readByte x)
    (hr : m'.mm.vmm.read16 (p % 4294967296) = .ok w) : ∀ x, Bytes p 2 x → Known m m' x := by
  unfold Vmm.read16 at hr
  rw [add_mod] at hr
  simp only [K.bind_eq_ok] at hr
  obtain ⟨b₀, h₀, b₁, h₁, _⟩ := hr
  rintro x ⟨k, hk, rfl⟩
  interval_cases k
  · exact known_of_read (h _ (.of_lt (by norm_num))) (b := b₀) (by rw [Nat.add_zero]; exact h₀)
  · exact known_of_read (h _ (.of_lt (by norm_num))) h₁

theorem StringBytes.succ {M : Mem} {x : ℕ} (hb : M.read8 p ≠ 0) (h : StringBytes M (p + 1) x) :
    StringBytes M p x := by
  obtain ⟨k, hk, rfl⟩ := h
  refine ⟨k + 1, fun j hj => ?_, by rw [Nat.add_assoc, Nat.add_comm 1 k]⟩
  cases j with
  | zero => exact hb
  | succ j =>
    have := hk j (by omega)
    rwa [show p + 1 + j = p + (j + 1) by omega] at this

theorem hashFold_known : ∀ {fuel p : ℕ} {h : UInt64},
    (∀ x, StringBytes (bytesOf m) p x → Known m m' x) →
    LiveLinker.hashFold32Cstr m'.mm.vmm fuel (p % 4294967296) h =
      Ospp.hashFold32Cstr (bytesOf m) fuel p h := by
  intro fuel
  induction fuel with
  | zero => intro p h _; rfl
  | succ fuel ih =>
    intro p h hk
    have h0 : Known m m' (p % 4294967296) := hk _ ⟨0, fun j hj => by omega, by rw [Nat.add_zero]⟩
    rw [LiveLinker.hashFold32Cstr, Ospp.hashFold32Cstr,
      show m'.mm.vmm.readByte _ = .ok (Mem.read8 (bytesOf m) p) from h0]
    show (if Mem.read8 (bytesOf m) p = 0 then _ else _) =
      if Mem.read8 (bytesOf m) p = 0 then _ else _
    by_cases hb : Mem.read8 (bytesOf m) p = 0
    · rw [if_pos hb, if_pos hb]
      rfl
    · rw [if_neg hb, if_neg hb, add_mod]
      exact ih fun x hx => hk x (hx.succ hb)

theorem known_of_hashFold : ∀ {fuel p : ℕ} {h : UInt64} {v : UInt32},
    Agree m m' (StringBytes (bytesOf m) p) →
    LiveLinker.hashFold32Cstr m'.mm.vmm fuel (p % 4294967296) h = .ok v →
      ∀ x, StringBytes (bytesOf m) p x → Known m m' x := by
  intro fuel
  induction fuel with
  | zero => intro p h v _ hr; cases hr
  | succ fuel ih =>
    intro p h v hagree hr x hx
    rw [LiveLinker.hashFold32Cstr, K.bind_eq_ok] at hr
    obtain ⟨b, hb, hr⟩ := hr
    have h0 : Known m m' (p % 4294967296) :=
      known_of_read (hagree _ ⟨0, fun j hj => by omega, by rw [Nat.add_zero]⟩) hb
    have hval : b = bytesOf m (p % 4294967296) := Except.ok.inj (hb.symm.trans h0)
    obtain ⟨k, hk, rfl⟩ := hx
    cases k with
    | zero => exact h0
    | succ k =>
      have hb0 : bytesOf m (p % 4294967296) ≠ 0 := hk 0 (by omega)
      rw [if_neg (by rw [hval]; exact hb0), add_mod] at hr
      refine ih (fun x hx => hagree x (hx.succ hb0)) hr _ ⟨k, fun j hj => ?_, ?_⟩
      · have := hk (j + 1) (by omega)
        rwa [show p + (j + 1) = p + 1 + j by omega] at this
      · rw [show p + (k + 1) = p + 1 + k by omega]

theorem kexpLookup_known {name : ℕ} (hlt : name < 4294967296)
    (h : name ≠ 0 → ∀ x, StringBytes (bytesOf m) name x → Known m m' x) :
    LiveLinker.kexpLookup tab m'.mm.vmm name = Ospp.kexpLookup tab (bytesOf m) name := by
  unfold LiveLinker.kexpLookup Ospp.kexpLookup
  by_cases h0 : name = 0
  · rw [if_pos h0, if_pos h0]
  · have hfold : LiveLinker.hashFold32Cstr m'.mm.vmm 4294967296 (name % 4294967296)
        1469598103934665603 =
          Ospp.hashFold32Cstr (bytesOf m) 4294967296 name 1469598103934665603 :=
      hashFold_known (h h0)
    rw [Nat.mod_eq_of_lt hlt] at hfold
    rw [if_neg h0, if_neg h0, hfold]

theorem known_of_kexpLookup {name : ℕ} {e : Option KexpEntry} (hlt : name < 4294967296)
    (hn : name ≠ 0) (hagree : Agree m m' (StringBytes (bytesOf m) name))
    (hr : LiveLinker.kexpLookup tab m'.mm.vmm name = .ok e) :
    ∀ x, StringBytes (bytesOf m) name x → Known m m' x := by
  unfold LiveLinker.kexpLookup at hr
  rw [if_neg hn, K.bind_eq_ok] at hr
  obtain ⟨v, hv, _⟩ := hr
  rw [← Nat.mod_eq_of_lt hlt] at hv
  exact known_of_hashFold hagree hv

/-- The fields of a symbol. -/
theorem shndx_known (h : ∀ x, Bytes (p + 14) 2 x → Known m m' x) :
    m'.mm.vmm.read16 (Word32.add (p % 4294967296) 14) = .ok (symbolIn (bytesOf m) p).shndx := by
  rw [add_mod]
  exact read16_known h

theorem value_known (h : ∀ x, Bytes (p + 4) 4 x → Known m m' x) :
    m'.mm.vmm.read32 (Word32.add (p % 4294967296) 4) = .ok (symbolIn (bytesOf m) p).value := by
  rw [add_mod]
  exact read32_known h

/-- **A symbol whose bytes are known.** -/
theorem resolve_known (h : ∀ x, SymbolReads (heldIn m L) p x → Known m m' x) :
    LiveLinker.resolve tab L m'.mm.vmm (p % 4294967296) =
      Linker.resolve tab (heldIn m L) (symbolIn (bytesOf m) p) := by
  obtain ⟨sym, hsym⟩ : ∃ sym, symbolIn (bytesOf m) p = sym := ⟨_, rfl⟩
  have hidx := shndx_known (p := p) fun x hx => h x (.shndx hx)
  rw [hsym] at hidx ⊢
  unfold LiveLinker.resolve Linker.resolve
  rw [hidx]
  show (if sym.shndx = shnUndef then _ else _) = if sym.shndx = shnUndef then _ else _
  by_cases hu : sym.shndx = shnUndef
  · have hu' : (symbolIn (heldIn m L).obj.image p).shndx = shnUndef := by
      show (symbolIn (bytesOf m) p).shndx = _
      rw [hsym, hu]
    have hstrtab := read32_known fun x hx => h x (.strtab hu' hx)
    have hname := read32_known fun x hx => h x (.name hu' hx)
    have hlook : LiveLinker.kexpLookup tab m'.mm.vmm (symbolName (heldIn m L) sym) =
        Ospp.kexpLookup tab (bytesOf m) (symbolName (heldIn m L) sym) := by
      refine kexpLookup_known (Nat.mod_lt _ (by norm_num)) fun hn x hx => h x (.string hu' ?_ ?_)
      · show symbolName _ (symbolIn (bytesOf m) p) ≠ 0
        rwa [hsym]
      · show StringBytes _ (symbolName _ (symbolIn (bytesOf m) p)) x
        rwa [hsym]
    have hnm : Mem.read32 (bytesOf m) p = sym.name := by rw [← hsym]; rfl
    rw [if_pos hu, if_pos hu,
      show m'.mm.vmm.read32 (Word32.add L.obj.strtab.toNat 16) = _ from hstrtab, hname, hnm]
    show (LiveLinker.kexpLookup tab m'.mm.vmm (symbolName (heldIn m L) sym) >>= _) = _
    rw [hlook]
    rfl
  · rw [if_neg hu, if_neg hu]
    have hu' : (symbolIn (heldIn m L).obj.image p).shndx ≠ shnUndef := by
      show (symbolIn (bytesOf m) p).shndx ≠ _
      rwa [hsym]
    have hvalue : sym.shndx ≠ shnCommon →
        m'.mm.vmm.read32 (Word32.add (p % 4294967296) 4) = .ok sym.value := by
      intro hc
      rw [← hsym] at hc ⊢
      exact value_known fun x hx => h x (.value hu' hc hx)
    by_cases ha : sym.shndx = shnAbs
    · rw [if_pos ha, if_pos ha, hvalue (by rw [ha]; decide)]
      rfl
    rw [if_neg ha, if_neg ha]
    by_cases hc : sym.shndx = shnCommon
    · rw [if_pos hc, if_pos hc]
      rfl
    rw [if_neg hc, if_neg hc, hvalue hc]
    show (if L.obj.secHdrsNum.toNat ≤ sym.shndx then _ else _) =
      if L.obj.secHdrsNum.toNat ≤ sym.shndx then _ else _
    by_cases hn : L.obj.secHdrsNum.toNat ≤ sym.shndx
    · rw [if_pos hn, if_pos hn]
      rfl
    rw [if_neg hn, if_neg hn, show (heldIn m L).map = L.map from rfl]
    cases L.map sym.shndx with
    | none => rfl
    | some q =>
      obtain ⟨wh, sec⟩ := q
      show (if (L.region wh).base = 0 then _ else _) = if (L.region wh).base = 0 then _ else _
      by_cases hb : (L.region wh).base = 0
      · rw [if_pos hb, if_pos hb]
        rfl
      · rw [if_neg hb, if_neg hb]
        rfl

/-- A symbol of the object that has been resolved: its value has been read, unless it is `COMMON`. -/
theorem value_read {res : Resolution} {i : ℕ} (hr : LiveLinker.resolve tab L m'.mm.vmm a = .ok res)
    (hres : res ≠ .fail) (hi : m'.mm.vmm.read16 (Word32.add a 14) = .ok i) (hu : i ≠ shnUndef)
    (hc : i ≠ shnCommon) : ∃ v, m'.mm.vmm.read32 (Word32.add a 4) = .ok v := by
  unfold LiveLinker.resolve at hr
  rw [hi] at hr
  replace hr : (if i = shnUndef then _ else _) = Except.ok res := hr
  rw [if_neg hu] at hr
  by_cases ha : i = shnAbs
  · rw [if_pos ha, K.bind_eq_ok] at hr
    obtain ⟨v, hv, _⟩ := hr
    exact ⟨v, hv⟩
  rw [if_neg ha, if_neg hc] at hr
  by_cases hn : L.obj.secHdrsNum.toNat ≤ i
  · rw [if_pos hn] at hr
    cases hr
    exact absurd rfl hres
  rw [if_neg hn] at hr
  cases hm : L.map i with
  | none =>
    rw [hm] at hr
    cases hr
    exact absurd rfl hres
  | some q =>
    obtain ⟨wh, sec⟩ := q
    rw [hm] at hr
    dsimp only at hr
    by_cases hb : (L.region wh).base = 0
    · rw [if_pos hb] at hr
      cases hr
      exact absurd rfl hres
    · rw [if_neg hb, K.bind_eq_ok] at hr
      obtain ⟨v, hv, _⟩ := hr
      exact ⟨v, hv⟩

/-- A symbol that has been resolved: its bytes have been read. -/
theorem known_of_resolve {res : Resolution} (hagree : Agree m m' (SymbolReads (heldIn m L) p))
    (hr : LiveLinker.resolve tab L m'.mm.vmm (p % 4294967296) = .ok res) (hres : res ≠ .fail) :
    ∀ x, SymbolReads (heldIn m L) p x → Known m m' x := by
  obtain ⟨sym, hsym⟩ : ∃ sym, symbolIn (heldIn m L).obj.image p = sym := ⟨_, rfl⟩
  have hstart := hr
  unfold LiveLinker.resolve at hstart
  rw [K.bind_eq_ok] at hstart
  obtain ⟨i, hi, hstart⟩ := hstart
  have hidx : ∀ x, Bytes (p + 14) 2 x → Known m m' x := by
    rw [add_mod] at hi
    exact known_of_read16 (fun x hx => hagree x (.shndx hx)) hi
  have hval : i = sym.shndx := by
    rw [← hsym]
    exact Except.ok.inj (hi.symm.trans (shndx_known hidx))
  subst hval
  by_cases hu : sym.shndx = shnUndef
  · rw [if_pos hu] at hstart
    simp only [K.bind_eq_ok] at hstart
    obtain ⟨strtab, hs, name, hn, e, he, _⟩ := hstart
    have hu' : (symbolIn (heldIn m L).obj.image p).shndx = shnUndef := by rw [hsym, hu]
    have hstrtab : ∀ x, Bytes (L.obj.strtab.toNat + 16) 4 x → Known m m' x :=
      known_of_read32 (fun x hx => hagree x (.strtab hu' hx)) hs
    have hname : ∀ x, Bytes p 4 x → Known m m' x :=
      known_of_read32 (fun x hx => hagree x (.name hu' hx)) hn
    rw [read32_value (fun x hx => hagree x (.strtab hu' hx)) hs,
      read32_value (fun x hx => hagree x (.name hu' hx)) hn] at he
    intro x hx
    cases hx with
    | shndx h => exact hidx x h
    | name _ h => exact hname x h
    | value hd _ _ => exact absurd hu' hd
    | strtab _ h => exact hstrtab x h
    | string _ hn0 h =>
      exact known_of_kexpLookup (Nat.mod_lt _ (by norm_num)) hn0
        (fun y hy => hagree y (.string hu' hn0 hy)) he x h
  · have hu' : (symbolIn (heldIn m L).obj.image p).shndx ≠ shnUndef := by rwa [hsym]
    intro x hx
    cases hx with
    | shndx h => exact hidx x h
    | name hd _ => exact absurd hd hu'
    | value _ hc h =>
      have hc' : sym.shndx ≠ shnCommon := by rwa [← hsym]
      obtain ⟨v, hv⟩ := value_read hr hres hi hu hc'
      rw [add_mod] at hv
      exact known_of_read32 (fun y hy => hagree y (.value hu' hc hy)) hv x h
    | strtab hd _ => exact absurd hd hu'
    | string hd _ _ => exact absurd hd hu'

/-! ## One entry -/

theorem Bytes.mono {n n' x : ℕ} (h : Bytes (p + a) n x) (hn : a + n ≤ n') : Bytes p n' x := by
  obtain ⟨k, hk, rfl⟩ := h
  exact ⟨a + k, by omega, by rw [Nat.add_assoc]⟩

/-- The two words of an entry. -/
theorem entry_known {e : Located} (ha : e.addr < 4294967296)
    (h : ∀ x, Bytes e.addr 8 x → Known m m' x) :
    m'.mm.vmm.read32 e.addr = .ok (e.patch (heldIn m L)).rel.offset ∧
      m'.mm.vmm.read32 (Word32.add e.addr 4) = .ok (e.patch (heldIn m L)).rel.info := by
  have h0 := read32_known (p := e.addr) fun x hx => h x (hx.mono (a := 0) (by norm_num))
  have h4 := read32_known (p := e.addr + 4) fun x hx => h x (hx.mono (by norm_num))
  rw [Nat.mod_eq_of_lt ha] at h0
  exact ⟨h0, h4⟩

/-- The outcome of a write does not depend on what announces it. -/
theorem result_write {τ τ' : Type} (t : τ) (t' : τ') (w : K Vmm) (m : ModuleSpace) :
    (do
      Traced.emit t
      let vmm ← Traced.lift w
      pure (withVmm m vmm, true) : Traced τ Halt (ModuleSpace × Bool)).result =
    (do
      Traced.emit t'
      let vmm ← Traced.lift w
      pure (withVmm m vmm, true) : Traced τ' Halt (ModuleSpace × Bool)).result := by
  cases w <;> rfl

/-- **An entry whose bytes are known** does what it does for the object that memory held. -/
theorem relocate_known {e : Located} (ha : e.addr < 4294967296)
    (h : ∀ x, EntryReads (heldIn m L) e x → Known m m' x)
    (hs : symbolAt (heldIn m L) e % 4294967296 ≠ 0) :
    (LiveLinker.relocate tab L e.which e.sec e.addr m').result =
      (Linker.relocate tab (heldIn m L) e.which e.sec (e.patch (heldIn m L)).rel m').result := by
  obtain ⟨r, hr⟩ : ∃ r, (e.patch (heldIn m L)).rel = r := ⟨_, rfl⟩
  obtain ⟨hoff, hinfo⟩ := entry_known (L := L) ha fun x hx => h x (.entry hx)
  rw [hr] at hoff hinfo ⊢
  unfold LiveLinker.relocate Linker.relocate
  rw [hinfo]
  by_cases hnull : L.obj.symtab = 0
  · have hsym : (heldIn m L).obj.symbolByIndex r.sym = none := if_pos hnull
    rw [hsym]
    show (if L.obj.symtab = 0 then _ else _ : Traced Event Halt (ModuleSpace × Bool)).result = _
    rw [if_pos hnull]
    rfl
  have hsym : (heldIn m L).obj.symbolByIndex r.sym =
      some (symbolIn (bytesOf m) (symbolAt (heldIn m L) e)) := by
    unfold symbolAt
    rw [hr]
    exact if_neg hnull
  have hsymtab : m'.mm.vmm.read32 (Word32.add L.obj.symtab.toNat 16) =
      .ok (Mem.read32 (bytesOf m) (L.obj.symtab.toNat + 16)) :=
    read32_known fun x hx => h x (.symtab hx)
  have hres : LiveLinker.resolve tab L m'.mm.vmm (symbolAt (heldIn m L) e % 4294967296) = _ :=
    resolve_known fun x hx => h x (.symbol hx)
  rw [hsym]
  show (if L.obj.symtab = 0 then _ else _ : Traced Event Halt (ModuleSpace × Bool)).result = _
  rw [if_neg hnull, hsymtab]
  have haddr : Word32.add (L.obj.headerOffset (Mem.read32 (bytesOf m) (L.obj.symtab.toNat + 16)))
      (16 * (r.info / 256)) = symbolAt (heldIn m L) e % 4294967296 := by
    unfold symbolAt
    rw [hr]
    rfl
  show (if Word32.add (L.obj.headerOffset (Mem.read32 (bytesOf m) (L.obj.symtab.toNat + 16)))
    (16 * (r.info / 256)) = 0 then _ else _ : Traced Event Halt (ModuleSpace × Bool)).result = _
  rw [haddr, if_neg hs, hoff]
  show (if e.sec.size < Word32.add r.offset 4 then _ else _ :
    Traced Event Halt (ModuleSpace × Bool)).result = (if e.sec.size < Word32.add r.offset 4 then _
      else _ : Traced Write Halt (ModuleSpace × Bool)).result
  by_cases hsz : e.sec.size < Word32.add r.offset 4
  · rw [if_pos hsz, if_pos hsz]
    rfl
  rw [if_neg hsz, if_neg hsz, hres]
  have hP : patchAddr (heldIn m L) e.which e.sec r = patchAddr L e.which e.sec r := rfl
  dsimp only
  rw [hP]
  cases m'.mm.vmm.read32 (patchAddr L e.which e.sec r) with
  | error _ => rfl
  | ok A =>
    cases Linker.resolve tab (heldIn m L) (symbolIn (bytesOf m) (symbolAt (heldIn m L) e)) with
    | error _ => rfl
    | ok res =>
      cases res with
      | fail => rfl
      | skip => rfl
      | value S =>
        show (if r.type = r386_32 then _ else _ : Traced Event Halt (ModuleSpace × Bool)).result =
          (if r.type = r386_32 then _ else _ : Traced Write Halt (ModuleSpace × Bool)).result
        by_cases h32 : r.type = r386_32
        · rw [if_pos h32, if_pos h32]
          exact result_write _ _ _ _
        rw [if_neg h32, if_neg h32]
        by_cases hpc : r.type = r386_PC32
        · rw [if_pos hpc, if_pos hpc]
          exact result_write _ _ _ _
        rw [if_neg hpc, if_neg hpc]
        rfl

/-- An entry that has been gone through: its bytes have been read. -/
theorem known_of_relocate {e : Located} (ha : e.addr < 4294967296)
    (hagree : Agree m m' (EntryReads (heldIn m L) e))
    (hr : (LiveLinker.relocate tab L e.which e.sec e.addr m').result = .ok (m'', true)) :
    (∀ x, EntryReads (heldIn m L) e x → Known m m' x) ∧
      symbolAt (heldIn m L) e % 4294967296 ≠ 0 := by
  unfold LiveLinker.relocate at hr
  rw [Traced.result_bind, Traced.result_lift] at hr
  obtain ⟨info, hinfo, hr⟩ := hr
  by_cases hnull : L.obj.symtab = 0
  · rw [if_pos hnull] at hr
    cases hr
  rw [if_neg hnull, Traced.result_bind] at hr
  obtain ⟨symtab, hsymtab, hr⟩ := hr
  rw [Traced.result_lift] at hsymtab
  dsimp only at hr
  by_cases hsym : Word32.add (L.obj.headerOffset symtab) (16 * (info / 256)) = 0
  · rw [if_pos hsym] at hr
    cases hr
  rw [if_neg hsym, Traced.result_bind] at hr
  obtain ⟨offset, hoff, hr⟩ := hr
  rw [Traced.result_lift] at hoff
  by_cases hsz : e.sec.size < Word32.add offset 4
  · rw [if_pos hsz] at hr
    cases hr
  rw [if_neg hsz, Traced.result_bind] at hr
  obtain ⟨A, _, hr⟩ := hr
  rw [Traced.result_bind] at hr
  obtain ⟨res, hres, hr⟩ := hr
  rw [Traced.result_lift] at hres
  -- the words of the entry
  have h0 : ∀ x, Bytes e.addr 4 x → Known m m' x := by
    rw [← Nat.mod_eq_of_lt ha] at hoff
    exact known_of_read32 (fun x hx => hagree x (.entry (hx.mono (a := 0) (by norm_num)))) hoff
  have h4 : ∀ x, Bytes (e.addr + 4) 4 x → Known m m' x :=
    known_of_read32 (fun x hx => hagree x (.entry (hx.mono (by norm_num)))) hinfo
  have hentry : ∀ x, Bytes e.addr 8 x → Known m m' x := by
    rintro x ⟨k, hk, rfl⟩
    by_cases hk4 : k < 4
    · exact h0 _ (.of_lt hk4)
    · rw [show e.addr + k = e.addr + 4 + (k - 4) by omega]
      exact h4 _ (.of_lt (by omega))
  have htab : ∀ x, Bytes (L.obj.symtab.toNat + 16) 4 x → Known m m' x :=
    known_of_read32 (fun x hx => hagree x (.symtab hx)) hsymtab
  -- the address of the symbol is that of the object memory held
  have hvi : info = (e.patch (heldIn m L)).rel.info :=
    Except.ok.inj (hinfo.symm.trans (entry_known ha hentry).2)
  have hvt : symtab = Mem.read32 (bytesOf m) (L.obj.symtab.toNat + 16) :=
    read32_value (fun x hx => hagree x (.symtab hx)) hsymtab
  have haddr : Word32.add (L.obj.headerOffset symtab) (16 * (info / 256)) =
      symbolAt (heldIn m L) e % 4294967296 := by
    rw [hvi, hvt]
    rfl
  rw [haddr] at hsym hres
  have hsymbol := known_of_resolve (fun x hx => hagree x (.symbol hx)) hres (by
    rintro rfl
    cases hr)
  refine ⟨fun x hx => ?_, hsym⟩
  cases hx with
  | entry h => exact hentry x h
  | symtab h => exact htab x h
  | symbol h => exact hsymbol x h

end

/-! ## All entries -/

section

variable {res ext own : ℕ → Prop} {tab : List KexpEntry} {L : Layout} {l : Linker} {wh : Which}
  {sec : Section} {m m' m'' : ModuleSpace}

/-- What `stage2` reads of the object can be read, and is what memory held before. -/
structure Legible (m : ModuleSpace) (L : Layout) (e : Located) : Prop where
  mem : e ∈ located (heldIn m L)
  read : ∀ x, EntryReads (heldIn m L) e x → Known m m x
  symbol : symbolAt (heldIn m L) e % 4294967296 ≠ 0

/-- In the states `I`, what is read of the object is as it was, and entries lead to such states. -/
structure Reading (tab : List KexpEntry) (m : ModuleSpace) (L : Layout) (I : ModuleSpace → Prop) :
    Prop where
  agree : ∀ {m'}, I m' → Agree m m' (ObjectReads (heldIn m L))
  step : ∀ {m' m'' e}, I m' → Legible m L e →
    (relocate tab L e.which e.sec e.addr m').result = .ok (m'', true) → I m''

/-- The state of `stage2`: what it reads of the object is as it was. -/
structure Intact (m : ModuleSpace) (L : Layout) (m' : ModuleSpace) : Prop where
  agree : Agree m m' (ObjectReads (heldIn m L))
  same : Mm.SameTables m.mm m'.mm
  lmm : m'.lmm = m.lmm

theorem Intact.refl (m : ModuleSpace) (L : Layout) : Intact m L m := ⟨fun _ _ => rfl, .refl _, rfl⟩

theorem mem_located {L : Layout} {e : Located} : e ∈ located L ↔
    ∃ h ∈ L.obj.secHdrs, Linker.relTarget L h = .apply e.which e.sec ∧
      ∃ j < h.size / 8, e.addr = (L.obj.headerOffset h.offset + 8 * j) % 4294967296 := by
  unfold located locatedIn
  rw [List.mem_flatMap]
  refine exists_congr fun h => and_congr_right fun _ => ?_
  cases Linker.relTarget L h with
  | fail => exact iff_of_false List.not_mem_nil fun h => by cases h.1
  | skip => exact iff_of_false List.not_mem_nil fun h => by cases h.1
  | apply wh sec =>
    dsimp only
    rw [List.mem_map]
    constructor
    · rintro ⟨j, hj, rfl⟩
      exact ⟨rfl, j, List.mem_range.1 hj, rfl⟩
    · rintro ⟨h1, j, hj, ha⟩
      cases h1
      exact ⟨j, List.mem_range.2 hj, by rw [← ha]⟩

/-- A word is the same at an address and modulo the size of the address space. -/
theorem read32_mod (M : Mem) (p : ℕ) : M.read32 (p % 4294967296) = M.read32 p := by
  unfold Mem.read32 Mem.read8
  rw [Nat.mod_mod, Nat.mod_add_mod, Nat.mod_add_mod, Nat.mod_add_mod]

theorem read32_mod_add (M : Mem) (p k : ℕ) :
    M.read32 (p % 4294967296 + k) = M.read32 (p + k) := by
  rw [← read32_mod, Nat.mod_add_mod, read32_mod]

/-- The entries of the object, and where they are. -/
theorem entries_eq_map (L : Layout) :
    entries L L.obj.secHdrs = (located L).map (Located.patch L) := by
  unfold entries located
  rw [List.map_flatMap]
  refine List.flatMap_congr fun h _ => ?_
  unfold locatedIn
  cases Linker.relTarget L h with
  | fail => rfl
  | skip => rfl
  | apply wh sec =>
    dsimp only
    unfold Object.rels
    rw [List.map_map, List.map_map]
    refine List.map_congr_left fun j _ => ?_
    unfold Located.patch Function.comp
    dsimp only
    rw [read32_mod, read32_mod_add]

theorem Bytes.lt {p n x : ℕ} (h : Bytes p n x) : x < 4294967296 := by
  obtain ⟨k, _, rfl⟩ := h
  exact Nat.mod_lt _ (by norm_num)

theorem ObjectReads.lt {x : ℕ} (h : ObjectReads L x) : x < 4294967296 := by
  cases h with
  | header _ h => cases h <;> exact Bytes.lt ‹_›
  | entry _ h =>
    cases h with
    | entry h => exact h.lt
    | symtab h => exact h.lt
    | symbol h =>
      cases h with
      | shndx h => exact h.lt
      | name _ h => exact h.lt
      | value _ _ h => exact h.lt
      | strtab _ h => exact h.lt
      | string _ _ h =>
        obtain ⟨k, _, rfl⟩ := h
        exact Nat.mod_lt _ (by norm_num)

theorem Located.addr_lt {e : Located} (he : e ∈ located L) : e.addr < 4294967296 := by
  obtain ⟨_, _, _, _, _, ha⟩ := mem_located.1 he
  rw [ha]
  exact Nat.mod_lt _ (by norm_num)

/-- An entry does what it does for the object that memory held. -/
theorem Legible.relocate_eq {e : Located} (he : Legible m L e)
    (h : Agree m m' (ObjectReads (heldIn m L))) :
    (LiveLinker.relocate tab L e.which e.sec e.addr m').result =
      (Linker.relocate tab (heldIn m L) e.which e.sec (e.patch (heldIn m L)).rel m').result :=
  relocate_known (Located.addr_lt he.mem)
    (fun x hx => (h x (.entry he.mem hx)).trans (he.read x hx)) he.symbol

/-- **One entry** leaves the object as it was. -/
theorem Intact.step (h : Intact m L m') (hp : Prepared res ext own l m (heldIn m L))
    (hu : Untouched (Found tab (bytesOf m)) m (heldIn m L))
    (hoff : ∀ e ∈ entries (heldIn m L) (heldIn m L).obj.secHdrs, e.rel.offset + 4 ≤ e.sec.size)
    {e : Located} (he : Legible m L e)
    (hr : (LiveLinker.relocate tab L e.which e.sec e.addr m').result = .ok (m'', true)) :
    Intact m L m'' := by
  rw [he.relocate_eq h.agree] at hr
  have hmem : e.patch (heldIn m L) ∈ entries (heldIn m L) (heldIn m L).obj.secHdrs := by
    rw [entries_eq_map]
    exact List.mem_map_of_mem he.mem
  rcases relocate_writes (e := e.patch (heldIn m L)) hr with rfl | ⟨S, w, vmm, hpat, _, hw, rfl⟩
  · exact h
  obtain ⟨⟨hlo, hhi, hsec⟩, hlive⟩ := hp.word hmem (hoff _ hmem)
  have hown := hp.loading.space.owned
  have hself := hown.wf.self
  have hfirst := hown.own_high _ (Or.inr (hlive 0 (by norm_num)).1)
  have hlast := hown.own_high _ (Or.inr (hlive 3 (by norm_num)).1)
  unfold Mm.identityPages at hfirst
  have ha : Mm.identityPages * 4096 ≤ (e.patch (heldIn m L)).addr (heldIn m L) := by
    unfold Mm.identityPages
    omega
  have hsame : Mm.SameTables m'.mm (withVmm m' vmm).mm :=
    (hown.of_same h.same).writeBytes ha (by omega) hw
  refine ⟨fun x hx => ?_, h.same.trans hsame, h.lmm⟩
  have hx' := hx.lt
  refine Eq.trans ?_ (h.agree x hx)
  refine (hown.of_same h.same).readByte_writeBytes_of_ne hx' ha (by omega) (fun k hk => ?_) hw
  rw [h.same.translate hself hx', h.same.translate hself (by omega)]
  exact hu _ hmem ⟨S, hpat⟩ k hk x hx

theorem Intact.reading (hp : Prepared res ext own l m (heldIn m L))
    (hu : Untouched (Found tab (bytesOf m)) m (heldIn m L))
    (hoff : ∀ e ∈ entries (heldIn m L) (heldIn m L).obj.secHdrs, e.rel.offset + 4 ≤ e.sec.size) :
    Reading tab m L (Intact m L) :=
  ⟨fun h => h.agree, fun h he hr => h.step hp hu hoff he hr⟩

variable {I : ModuleSpace → Prop}

/-- **Legible entries** one after the other, in any order. -/
theorem Reading.relocateEach_eq (hI : Reading tab m L I) :
    ∀ {es : List Located} {m' : ModuleSpace}, I m' → (∀ e ∈ es, Legible m L e) →
      (relocateEach tab L es m').result =
        (relocateEntries tab (heldIn m L) (es.map (Located.patch (heldIn m L))) m').result := by
  intro es
  induction es with
  | nil => intro m' _ _; rfl
  | cons e es ih =>
    intro m' h hes
    obtain ⟨he, hes⟩ := List.forall_mem_cons.1 hes
    rw [relocateEach, List.map_cons, relocateEntries]
    refine Traced.result_bind_congr (he.relocate_eq (hI.agree h)) fun q hq => ?_
    obtain ⟨m₁, ok⟩ := q
    cases ok with
    | false => rfl
    | true => exact ih (hI.step h he hq) hes

/-- What the inner loop has gone through. -/
theorem Reading.relocateAll (hI : Reading tab m L I) :
    ∀ {n q : ℕ} {m' : ModuleSpace}, I m' →
      (∀ j < n, ⟨wh, sec, (q + 8 * j) % 4294967296⟩ ∈ located (heldIn m L)) →
      (LiveLinker.relocateAll tab L wh sec n (q % 4294967296) m').result = .ok (m'', true) →
      (∀ j < n, Legible m L ⟨wh, sec, (q + 8 * j) % 4294967296⟩) ∧ I m'' ∧
        (relocateEach tab L ((List.range n).map fun j => ⟨wh, sec, (q + 8 * j) % 4294967296⟩)
          m').result = .ok (m'', true) := by
  intro n
  induction n with
  | zero =>
    intro q m' h _ hr
    cases hr
    exact ⟨fun j hj => absurd hj (Nat.not_lt_zero j), h, rfl⟩
  | succ n ih =>
    intro q m' h hloc hr
    rw [LiveLinker.relocateAll, Traced.result_bind] at hr
    obtain ⟨⟨m₁, ok⟩, h₁, hr⟩ := hr
    cases ok with
    | false => cases hr
    | true =>
      have hfirst := hloc 0 (Nat.zero_lt_succ n)
      have he : Legible m L ⟨wh, sec, (q + 8 * 0) % 4294967296⟩ := by
        obtain ⟨hread, hsym⟩ := known_of_relocate
          (e := ⟨wh, sec, (q + 8 * 0) % 4294967296⟩) (Located.addr_lt hfirst)
          (fun x hx => hI.agree h x (.entry hfirst hx)) h₁
        exact ⟨hfirst, fun x hx => (hI.agree h x (.entry hfirst hx)).symm.trans (hread x hx), hsym⟩
      have hnext : ∀ j, q + 8 * (j + 1) = q + 8 + 8 * j := fun j => by omega
      have h₁' := hI.step h he h₁
      dsimp only at hr
      rw [if_pos rfl, add_mod] at hr
      obtain ⟨hleg, h₂, heach⟩ := ih h₁' (fun j hj => by
        have := hloc (j + 1) (by omega)
        rwa [hnext] at this) hr
      refine ⟨fun j hj => ?_, h₂, ?_⟩
      · cases j with
        | zero => exact he
        | succ j =>
          rw [hnext]
          exact hleg j (by omega)
      · rw [List.range_succ_eq_map, List.map_cons, relocateEach, Traced.result_bind]
        refine ⟨(m₁, true), h₁, ?_⟩
        rw [List.map_map]
        have hmap : ((fun j => (⟨wh, sec, (q + 8 * j) % 4294967296⟩ : Located)) ∘ Nat.succ) =
            fun j => ⟨wh, sec, (q + 8 + 8 * j) % 4294967296⟩ := by
          funext j
          exact congrArg (Located.mk wh sec) (congrArg (· % 4294967296) (hnext j))
        rw [hmap]
        exact heach

/-- **A section header** whose bytes are as they were. -/
theorem relTarget_agree {p : ℕ} {t : RelTarget} (hagree : Agree m m' (HeaderReads (heldIn m L) p))
    (hr : LiveLinker.relTarget L m'.mm.vmm (p % 4294967296) = .ok t) (ht : t ≠ .fail) :
    (t = .skip ∧
      Linker.relTarget (heldIn m L) ((heldIn m L).obj.sectionHeader p) = .skip) ∨
    ∃ wh sec, t = .apply wh sec ((heldIn m L).obj.headerOffset
        ((heldIn m L).obj.sectionHeader p).offset)
        (((heldIn m L).obj.sectionHeader p).size / 8) ∧
      Linker.relTarget (heldIn m L) ((heldIn m L).obj.sectionHeader p) = .apply wh sec := by
  obtain ⟨h, hh⟩ : ∃ h, (heldIn m L).obj.sectionHeader p = h := ⟨_, rfl⟩
  have hfield : ∀ {f v : ℕ}, (∀ x, Bytes (p + f) 4 x → HeaderReads (heldIn m L) p x) →
      m'.mm.vmm.read32 (Word32.add (p % 4294967296) f) = .ok v →
        v = Mem.read32 (bytesOf m) (p + f) := by
    intro f v hreads hv
    rw [add_mod] at hv
    exact read32_value (fun x hx => hagree x (hreads x hx)) hv
  rw [hh]
  unfold LiveLinker.relTarget at hr
  rw [K.bind_eq_ok] at hr
  obtain ⟨type, h₁, hr⟩ := hr
  have htype : type = h.type := by
    rw [← hh]
    exact hfield (fun x hx => .type hx) h₁
  unfold Linker.relTarget
  by_cases hrel : type = shtRel
  swap
  · rw [if_pos hrel] at hr
    cases hr
    exact Or.inl ⟨rfl, if_pos (by rw [← htype]; exact hrel)⟩
  have hrel' : ((heldIn m L).obj.sectionHeader p).type = shtRel := by rw [hh, ← htype, hrel]
  rw [if_neg (not_not.2 hrel), K.bind_eq_ok] at hr
  obtain ⟨info, h₂, hr⟩ := hr
  have hinfo : info = h.info := by
    rw [← hh]
    exact hfield (fun x hx => .info hrel' hx) h₂
  rw [if_neg (not_not.2 (by rw [← htype]; exact hrel)), ← hinfo]
  by_cases hnum : L.obj.secHdrsNum.toNat ≤ info % 65536
  · rw [if_pos hnum] at hr
    cases hr
    exact absurd rfl ht
  rw [if_neg hnum] at hr
  rw [if_neg (show ¬ (heldIn m L).obj.secHdrsNum.toNat ≤ info % 65536 from hnum),
    show (heldIn m L).map = L.map from rfl]
  cases hm : L.map (info % 65536) with
  | none =>
    rw [hm] at hr
    cases hr
    exact Or.inl ⟨rfl, rfl⟩
  | some q =>
    obtain ⟨wh, sec⟩ := q
    have hm' : (heldIn m L).map (((heldIn m L).obj.sectionHeader p).info % 65536) ≠ none := by
      rw [hh, ← hinfo]
      show L.map (info % 65536) ≠ none
      rw [hm]
      exact Option.some_ne_none _
    rw [hm] at hr
    dsimp only at hr ⊢
    by_cases hb : (L.region wh).base = 0
    · rw [if_pos hb] at hr
      cases hr
      exact absurd rfl ht
    rw [if_neg hb] at hr
    rw [if_neg (show ¬ ((heldIn m L).region wh).base = 0 from hb)]
    simp only [K.bind_eq_ok] at hr
    obtain ⟨offset, h₃, size, h₄, hr⟩ := hr
    have hoff : offset = h.offset := by
      rw [← hh]
      exact hfield (fun x hx => .offset hrel' hm' hx) h₃
    have hsize : size = h.size := by
      rw [← hh]
      exact hfield (fun x hx => .size hrel' hm' hx) h₄
    subst hoff hsize
    by_cases hnull : L.obj.headerOffset h.offset = 0 ∧ h.size ≠ 0
    · rw [if_pos hnull] at hr
      cases hr
      exact absurd rfl ht
    · rw [if_neg hnull] at hr
      cases hr
      exact Or.inr ⟨wh, sec, rfl,
        if_neg (show ¬ ((heldIn m L).obj.headerOffset h.offset = 0 ∧ h.size ≠ 0) from hnull)⟩

/-- The entries of some of the section headers. -/
def locatedOf (L : Layout) (is : List ℕ) : List Located :=
  is.flatMap fun i => locatedIn L (L.obj.secHdr i)

theorem locatedOf_range (L : Layout) :
    locatedOf L (List.range L.obj.secHdrsNum.toNat) = located L := by
  unfold locatedOf located Object.secHdrs
  rw [List.flatMap_map]

theorem relocateEach_append {es' : List Located} {m₁ : ModuleSpace}
    (h' : (relocateEach tab L es' m₁).result = .ok (m'', true)) : ∀ {es : List Located}
      {m' : ModuleSpace}, (relocateEach tab L es m').result = .ok (m₁, true) →
        (relocateEach tab L (es ++ es') m').result = .ok (m'', true) := by
  intro es
  induction es with
  | nil => intro m' h; cases h; exact h'
  | cons e es ih =>
    intro m' h
    rw [relocateEach, Traced.result_bind] at h
    obtain ⟨⟨m₂, ok⟩, h₂, h⟩ := h
    cases ok with
    | false => cases h
    | true =>
      rw [List.cons_append, relocateEach, Traced.result_bind]
      exact ⟨(m₂, true), h₂, ih h⟩

/-- **What the outer loop has gone through.** -/
theorem Reading.relocateSections (hI : Reading tab m L I) :
    ∀ {is : List ℕ} {m' : ModuleSpace}, I m' →
      (∀ i ∈ is, i < L.obj.secHdrsNum.toNat) →
      (LiveLinker.relocateSections tab L is m').result = .ok (m'', true) →
      (∀ e ∈ locatedOf (heldIn m L) is, Legible m L e) ∧
        (relocateEach tab L (locatedOf (heldIn m L) is) m').result = .ok (m'', true) ∧ I m'' ∧
        ∀ i ∈ is, Linker.relTarget (heldIn m L) ((heldIn m L).obj.secHdr i) ≠ .fail := by
  intro is
  induction is with
  | nil =>
    intro m' h _ hr
    cases hr
    exact ⟨fun e he => absurd he List.not_mem_nil, rfl, h, fun i hi => absurd hi List.not_mem_nil⟩
  | cons i is ih =>
    intro m' h his hr
    obtain ⟨hi, his⟩ := List.forall_mem_cons.1 his
    rw [LiveLinker.relocateSections, Traced.result_bind] at hr
    obtain ⟨t, ht, hr⟩ := hr
    have hcons : locatedOf (heldIn m L) (i :: is) =
        locatedIn (heldIn m L) ((heldIn m L).obj.secHdr i) ++ locatedOf (heldIn m L) is :=
      List.flatMap_cons
    have hne : t ≠ .fail := by
      rintro rfl
      cases hr
    rcases relTarget_agree (p := headerAt L i) (fun x hx => hI.agree h x (.header hi hx)) ht hne with
      ⟨rfl, hskip⟩ | ⟨wh, sec, rfl, happly⟩
    · have hnil : locatedIn (heldIn m L) ((heldIn m L).obj.secHdr i) = [] := by
        unfold locatedIn
        rw [show Linker.relTarget (heldIn m L) ((heldIn m L).obj.secHdr i) = .skip from hskip]
      rw [hcons, hnil]
      obtain ⟨hleg, heach, h', htargets⟩ := ih h his hr
      refine ⟨hleg, heach, h', List.forall_mem_cons.2 ⟨fun hf => ?_, htargets⟩⟩
      cases hskip.symm.trans hf
    · obtain ⟨hd, hhd⟩ : ∃ hd, (heldIn m L).obj.secHdr i = hd := ⟨_, rfl⟩
      have hhd' : (heldIn m L).obj.sectionHeader (headerAt L i) = hd := hhd
      rw [hhd'] at happly hr
      have hlist : locatedIn (heldIn m L) hd = (List.range (hd.size / 8)).map fun j =>
          ⟨wh, sec, ((heldIn m L).obj.headerOffset hd.offset + 8 * j) % 4294967296⟩ := by
        unfold locatedIn
        rw [happly]
      have hmem : hd ∈ (heldIn m L).obj.secHdrs := by
        rw [← hhd]
        exact List.mem_map_of_mem (List.mem_range.2 hi)
      have hmod : (heldIn m L).obj.headerOffset hd.offset % 4294967296 =
          (heldIn m L).obj.headerOffset hd.offset := Nat.mod_mod _ _
      dsimp only at hr
      rw [Traced.result_bind] at hr
      obtain ⟨⟨m₁, ok⟩, h₁, hr⟩ := hr
      cases ok with
      | false => cases hr
      | true =>
        rw [← hmod] at h₁
        obtain ⟨hleg, hint, heach⟩ := hI.relocateAll h (fun j hj =>
          mem_located.2 ⟨hd, hmem, happly, j, hj, rfl⟩) h₁
        obtain ⟨hleg', heach', h', htargets⟩ := ih hint his hr
        rw [hcons, hhd, hlist]
        refine ⟨fun e he => ?_, relocateEach_append heach' heach, h',
          List.forall_mem_cons.2 ⟨fun hf => ?_, htargets⟩⟩
        swap
        · rw [hhd] at hf
          cases happly.symm.trans hf
        rcases List.mem_append.1 he with he | he
        · obtain ⟨j, hj, rfl⟩ := List.mem_map.1 he
          exact hleg j (List.mem_range.1 hj)
        · exact hleg' e he

/-! ## What `stage2` finds -/

variable {l : Linker} {o : Object} {calls : LoadCalls} {L' : Layout}

/-- The pages of a region come into use with frames behind them, and copying keeps these. -/
theorem stage1_backed (hl : Loading res ext own l m L) (hbase : (L.region wh).base = 0)
    (hsize : (L.region wh).size % 4096 = 0) {ok : Bool}
    (hr : (stage1 m L wh).result = .ok (m', L', ok)) (h : Backed m L) : Backed m' L' := by
  unfold stage1 at hr
  dsimp only at hr
  by_cases h0 : (L.region wh).size = 0
  · rw [if_pos h0] at hr
    cases hr
    exact h
  rw [if_neg h0, Traced.result_bind, Traced.result_lift] at hr
  obtain ⟨⟨m₁, base⟩, hmap, hr⟩ := hr
  obtain ⟨x, rfl, hx0, hok, hinv, hch, hnew⟩ := mapRegion_spec hl.space hsize h0 hmap
  have hl₁ := hl.extend hbase hok hinv hch
  have hreg : (L.withBase wh x).region wh = { L.region wh with base := x } :=
    Layout.region_setRegion _ _ _
  rw [Traced.result_bind] at hr
  obtain ⟨⟨m₂, ok₂⟩, hcopy, hr⟩ := hr
  cases hr
  have hsame := ((copySections_ensures hok (by rw [hreg]; exact hx0) (by rw [hreg]; exact h0)
    hinv).value _ hcopy).2.1
  intro v hv
  rw [hsame.mapped v (hl₁.low hv)]
  exact h.mapRegion hl₁ hbase hch hnew v hv

theorem prepared_held (h : Prepared res ext own l m L) : Prepared res ext own l m (heldIn m L) :=
  ⟨⟨h.loading.space, h.loading.ok, h.loading.changes⟩, h.backed, fun j wh sec hm hb =>
    have hf := h.fits j wh sec hm hb
    ⟨hf.lo, hf.hi, hf.sec⟩⟩

/-- **What the relocations find.** -/
theorem Staged.prepared (hs : Staged s calls o m L)
    (h : s.linker.space.Inv res ext (withHeap own s.heapEnd) (runs s.linker.layouts))
    (he : HeapEndOk s.heapEnd) (hout : ∀ v, own v → ¬ Mm.HeapWindow v) :
    ∃ m₀ e, Prepared res ext (withHeap own e) ⟨m₀, s.linker.layouts⟩ m L := by
  obtain ⟨m₀, e₀, P, m₁, L₁, hs₀, h₁, h₂⟩ := hs
  obtain ⟨_, hp, hP, hl₀, hsize⟩ := loading_of_stage0 h he hout hs₀
  rw [hP] at h₁
  have hback₀ : Backed m₀ (P.withBases fun _ => 0) := by
    rintro v ⟨r, hr, _⟩
    cases hr
  have hback₁ := stage1_backed hl₀ (by rw [Layout.region_withBases])
    (by rw [Layout.region_withBases]; exact hsize rfl .rx) h₁ hback₀
  obtain ⟨x, rfl, hl₁, hf₁⟩ := (stage1_bases hl₀ rfl (hsize rfl .rx)).value _ h₁
  rw [update_rx] at h₂ hl₁ hf₁ hback₁
  have hback₂ := stage1_backed hl₁ (by rw [Layout.region_withBases]; rfl)
    (by rw [Layout.region_withBases]; exact hsize rfl .rw) h₂ hback₁
  obtain ⟨y, rfl, hl₂, hf₂⟩ := (stage1_bases hl₁ rfl (hsize rfl .rw)).value _ h₂
  rw [update_rw] at hl₂ hf₂ hback₂ ⊢
  refine ⟨m₀, e₀, hl₂, hback₂, mapFits_of_filled hp hl₂ fun wh => ?_⟩
  cases wh
  · exact hf₁ rfl
  · exact hf₂ rfl

end

/-- **Relocations in live memory.** In every state the linker can reach, for every object that gets
to `stage2`: when `stage2` succeeds, with offsets in the sections, patched words apart and none of
them on a byte that is read of the object, every patched word is `S + A` or `S + A - P` and nothing
else changes; and the entries give the same memory in any order. An undefined symbol has the address
that `kexp::lookup` finds for its name. -/
theorem relocation_correct (tab : List KexpEntry) (s₀ s : LiveLinker) (h₀ : Init s₀)
    (as : List Act) (hrun : Run (Step tab) s₀ as s) (o : Object) (calls : LoadCalls)
    (m m' : ModuleSpace) (L : Layout) (hs : Staged s calls o m L)
    (h₂ : (stage2 tab m L).result = .ok (m', true))
    (hoff : ∀ e ∈ entries (heldIn m L) (heldIn m L).obj.secHdrs, e.rel.offset + 4 ≤ e.sec.size)
    (hapart : WordsApart (Found tab (bytesOf m)) (heldIn m L))
    (hu : Untouched (Found tab (bytesOf m)) m (heldIn m L)) :
    Relocated (Found tab (bytesOf m)) s.linker (heldIn m L) m m' ∧
      (relocateEach tab L (located (heldIn m L)) m).result = .ok (m', true) ∧
      ∀ es, es.Perm (located (heldIn m L)) → ∃ m'',
        (relocateEach tab L es m).result = .ok (m'', true) ∧
          SameMemory s.linker (heldIn m L) m' m'' := by
  obtain ⟨res, ext, own, hout, _, hI₀⟩ := inv_init h₀
  have hI := inv_run hout hI₀ hrun
  obtain ⟨m₀, e, hp⟩ := hs.prepared hI.space hI.heap hout
  have hp := prepared_held hp
  have hreading : Reading tab m L (Intact m L) := Intact.reading hp hu hoff
  obtain ⟨hleg, heach, _, _⟩ := hreading.relocateSections (Intact.refl m L)
    (fun i hi => List.mem_range.1 hi) h₂
  have hall : locatedOf (heldIn m L) (List.range L.obj.secHdrsNum.toNat) = located (heldIn m L) :=
    locatedOf_range (heldIn m L)
  rw [hall] at hleg heach
  have heq : ∀ es : List Located, (∀ e ∈ es, e ∈ located (heldIn m L)) →
      (relocateEach tab L es m).result =
        (relocateEntries tab (heldIn m L) (es.map (Located.patch (heldIn m L))) m).result :=
    fun es hes => hreading.relocateEach_eq (Intact.refl m L) fun e he => hleg e (hes e he)
  have hentries := entries_eq_map (heldIn m L)
  have hr : (relocateEntries tab (heldIn m L)
      (entries (heldIn m L) (heldIn m L).obj.secHdrs) m).result = .ok (m', true) := by
    rw [hentries, ← heq _ fun _ he => he]
    exact heach
  obtain ⟨hrel, hperm⟩ := hp.relocated hr hoff hapart
  refine ⟨⟨hrel.words, hrel.others⟩, heach, fun es hes => ?_⟩
  obtain ⟨m'', hr'', hsame⟩ := hperm (es.map (Located.patch (heldIn m L))) (by
    rw [hentries]
    exact hes.map _)
  exact ⟨m'', (heq es fun e he => hes.subset he).trans hr'', ⟨hsame.lmm, hsame.tables, hsame.bytes⟩⟩

/-! ## Small objects in memory -/

/-- An object in memory goes through all stages. -/
theorem exists_relocated (tab : List KexpEntry) (ws : List (ℕ × ℕ)) (o : Object)
    {p : ModuleSpace → Layout → ModuleSpace → Bool}
    (h : (do
      let mm ← Mm.init samplePmm (sampleMemory ws)
      let r₀ ← stage0 quietCalls ⟨.empty, mm⟩ 0x1100000 (Layout.new o)
      let r₁ ← (stage1 r₀.1 r₀.2.2.1 .rx).result
      let r₂ ← (stage1 r₁.1 r₁.2.1 .rw).result
      let r ← (stage2 tab r₂.1 r₂.2.1).result
      return (r₀.2.2.2 && r₁.2.2 && r₂.2.2 && r.2 && p r₂.1 r₂.2.1 r.1) : K Bool).holds id =
        true) :
    ∃ s m L m', Init s ∧ Staged s quietCalls o m L ∧ (stage2 tab m L).result = .ok (m', true) ∧
      p m L m' = true := by
  obtain ⟨v, hw, hv⟩ := K.exists_of_holds h
  simp only [K.bind_eq_ok] at hw
  obtain ⟨mm, hmm, ⟨m₀, e₀, P, ok₀⟩, h₀, ⟨m₁, L₁, ok₁⟩, h₁, ⟨m, L, ok₂⟩, h₂, ⟨m', ok⟩, h₃, he⟩ := hw
  cases he
  simp only [id, Bool.and_eq_true] at hv
  obtain ⟨⟨⟨⟨rfl, rfl⟩, rfl⟩, rfl⟩, hp⟩ := hv
  exact ⟨freshLinker mm, m, L, m', init_fresh hmm, ⟨m₀, e₀, P, m₁, L₁, h₀, h₁, h₂⟩, h₃, hp⟩

theorem wordsApart_of_length {E : ℕ → ℕ → Prop} {L : Layout}
    (h : (entries L L.obj.secHdrs).length = 1) : WordsApart E L := by
  obtain ⟨e, he⟩ := List.length_eq_one_iff.1 h
  unfold WordsApart
  rw [he]
  exact List.pairwise_singleton _ _

theorem Bytes.page {p n x : ℕ} (h : Bytes p n x) (hlo : 0x200000 ≤ p) (hhi : p + n ≤ 0x201000) :
    x / 4096 = 0x200 := by
  obtain ⟨k, hk, rfl⟩ := h
  rw [Nat.mod_eq_of_lt (by omega)]
  omega

/-- What `stage2` reads of such an object lies on one page. -/
theorem page_of_objectReads {L : Layout} (hhdr : L.obj.hdr = 0x200000)
    (hshoff : L.obj.shoff = 0x400) (hnum : L.obj.secHdrsNum = 5) (hsymtab : L.obj.symtab = 0x2004A0)
    (hloc : ∀ e ∈ located L, e.addr = 0x200200 ∧ symbolAt L e = 0x200300)
    (hidx : (symbolIn L.obj.image 0x200300).shndx ≠ shnUndef) {x : ℕ} (hx : ObjectReads L x) :
    x / 4096 = 0x200 := by
  cases hx with
  | @header i hi h =>
    have hi : i < 5 := by rwa [hnum] at hi
    have hat : headerAt L i = 0x200400 + 40 * i := by
      unfold headerAt Object.headerOffset
      rw [hhdr, hshoff]
      rfl
    rw [hat] at h
    cases h with
    | type h => exact h.page (by omega) (by omega)
    | info _ h => exact h.page (by omega) (by omega)
    | offset _ _ h => exact h.page (by omega) (by omega)
    | size _ _ h => exact h.page (by omega) (by omega)
  | entry he h =>
    obtain ⟨haddr, hsym⟩ := hloc _ he
    cases h with
    | entry h => rw [haddr] at h; exact h.page (by norm_num) (by norm_num)
    | symtab h =>
      rw [hsymtab] at h
      exact Bytes.page h (by decide) (by decide)
    | symbol h =>
      rw [hsym] at h
      cases h with
      | shndx h => exact h.page (by norm_num) (by norm_num)
      | name hu _ => exact absurd hu hidx
      | value _ _ h => exact h.page (by norm_num) (by norm_num)
      | strtab hu _ => exact absurd hu hidx
      | string hu _ _ => exact absurd hu hidx

/-- No word of the window is touched when what is read lies on that page. -/
theorem untouched_of_page {E : ℕ → ℕ → Prop} {L : Layout} {m : ModuleSpace} {f g : ℕ}
    (hreads : ∀ x, ObjectReads L x → x / 4096 = 0x200)
    (hf : m.mm.mapped 0x200 = some f) (hg : m.mm.mapped 0xA000 = some g) (hne : f ≠ g)
    (hat : ∀ e ∈ entries L L.obj.secHdrs, e.addr L = 0xA000008) : Untouched E m L := by
  intro e he _ k hk x hx htr
  have hpage := hreads x hx
  have hword : (0xA000008 + k) / 4096 = 0xA000 := by omega
  rw [hat e he, Mm.translate_eq (by omega), Mm.translate_eq (by omega), hpage, hword, hf, hg,
    Option.map_some, Option.map_some, Option.some.injEq] at htr
  omega

/-- The small object with its entry at offset 0. -/
theorem relocation_correct_sample : ∃ s m L m', Init s ∧
    Staged s quietCalls (lowObject (lowWords 0)) m L ∧ (stage2 [] m L).result = .ok (m', true) ∧
    (∀ e ∈ entries (heldIn m L) (heldIn m L).obj.secHdrs, e.rel.offset + 4 ≤ e.sec.size) ∧
    WordsApart (Found [] (bytesOf m)) (heldIn m L) ∧
    Untouched (Found [] (bytesOf m)) m (heldIn m L) ∧
    Relocated (Found [] (bytesOf m)) s.linker (heldIn m L) m m' ∧
    m'.mm.vmm.read32 0xA000008 = .ok 0x41414141 := by
  obtain ⟨s, m, L, m', hinit, hs, h₂, hp⟩ := exists_relocated [] (lowWords 0) (lowObject (lowWords 0))
    (p := fun m L m' => (entries (heldIn m L) (heldIn m L).obj.secHdrs).length == 1 &&
      (entries (heldIn m L) (heldIn m L).obj.secHdrs).all (fun e =>
        decide (e.rel.offset + 4 ≤ e.sec.size ∧ e.addr (heldIn m L) = 0xA000008)) &&
      (located (heldIn m L)).all (fun e =>
        decide (e.addr = 0x200200 ∧ symbolAt (heldIn m L) e = 0x200300)) &&
      decide ((symbolIn (bytesOf m) 0x200300).shndx ≠ shnUndef) &&
      decide (L.obj.hdr = 0x200000 ∧ L.obj.shoff = 0x400 ∧ L.obj.secHdrsNum = 5 ∧
        L.obj.symtab = 0x2004A0) &&
      m.mm.mapped 0x200 == some 0x200 &&
      (m.mm.mapped 0xA000).any (fun g => decide (0x200 ≠ g)) &&
      (m'.mm.vmm.read32 0xA000008).holds (· == 0x41414141)) (by decide +kernel)
  simp only [Bool.and_eq_true, beq_iff_eq, List.all_eq_true, decide_eq_true_eq] at hp
  obtain ⟨⟨⟨⟨⟨⟨⟨hone, hent⟩, hloc⟩, hidx⟩, hhdr, hshoff, hnum, hsymtab⟩, hf⟩, hg⟩, hword⟩ := hp
  obtain ⟨g, hg, hne⟩ := (Option.any_eq_true _ _).1 hg
  obtain ⟨w, hw, hw'⟩ := K.exists_of_holds hword
  rw [eq_of_beq hw'] at hw
  have hoff : ∀ e ∈ entries (heldIn m L) (heldIn m L).obj.secHdrs,
      e.rel.offset + 4 ≤ e.sec.size := fun e he => (hent e he).1
  have hu : Untouched (Found [] (bytesOf m)) m (heldIn m L) :=
    untouched_of_page (fun x hx => page_of_objectReads (L := heldIn m L) hhdr hshoff hnum hsymtab
      hloc hidx hx) hf hg (of_decide_eq_true hne) fun e he => (hent e he).2
  exact ⟨s, m, L, m', hinit, hs, h₂, hoff, wordsApart_of_length hone, hu,
    (relocation_correct [] s s hinit [] (.nil s) _ _ m m' L hs h₂ hoff
      (wordsApart_of_length hone) hu).1, hw⟩

/-! ## Names with one hash, and entries that change entries -/

/-- `stage2` succeeds, with offsets in the sections and patched words apart, and what it leaves is
not what the names that the kernel exports lead to. -/
structure Otherwise (es : List Export) (s : LiveLinker) (o : Object) (m m' : ModuleSpace)
    (L : Layout) : Prop where
  init : Init s
  staged : Staged s quietCalls o m L
  result : (stage2 (kexpTable es) m L).result = .ok (m', true)
  offsets : ∀ e ∈ entries (heldIn m L) (heldIn m L).obj.secHdrs, e.rel.offset + 4 ≤ e.sec.size
  apart : WordsApart (Exported es (bytesOf m)) (heldIn m L)
  wrong : ¬ Relocated (Exported es (bytesOf m)) s.linker (heldIn m L) m m'

/-- The words of an object at `0x200000` with a section of code and one entry in it, for the
undefined symbol `djpcnzc`. -/
def nameWords : List (ℕ × ℕ) :=
  headerWords 0x200428 ⟨shtProgbits, 6, 0x100, 8, 0, 4⟩ ++
    headerWords 0x200450 ⟨3, 0, 0x280, 9, 0, 1⟩ ++
    headerWords 0x200478 ⟨shtRel, 0, 0x200, 8, 1, 4⟩ ++ headerWords 0x2004A0 ⟨2, 0, 0x300, 16, 0, 4⟩ ++
    [(0x200204, r386_32), (0x200280, 0x706A6400), (0x200284, 0x637A6E63), (0x200300, 1)]

def nameObject : Object := { lowObject nameWords with strtab := 0x200450 }

/-- The kernel exports `api` only. The entry for `djpcnzc` is applied with the address of `api`,
whose hash the name has, and its word changes. -/
theorem exists_name : ∃ s m m' L, Otherwise [⟨apiName, 0x123000⟩] s nameObject m m' L := by
  obtain ⟨s, m, L, m', hinit, hs, h₂, hp⟩ := exists_relocated
    (kexpTable [⟨apiName, 0x123000⟩]) nameWords nameObject
    (p := fun m L m' => (entries (heldIn m L) (heldIn m L).obj.secHdrs).length == 1 &&
      (entries (heldIn m L) (heldIn m L).obj.secHdrs).all (fun e =>
        decide (e.rel.offset + 4 ≤ e.sec.size) &&
          (heldIn m L).obj.symbolByIndex e.rel.sym == some ⟨1, 0, 0⟩) &&
      !decide (HoldsString (bytesOf m) (symbolName (heldIn m L) ⟨1, 0, 0⟩) apiName.bytes) &&
      (m.mm.vmm.readByte 0xA000001).holds (· == 0) &&
      (m'.mm.vmm.readByte 0xA000001).holds (· == 0x30) &&
      decide (L.rx.base = 0xA000000 ∧ L.rx.size = 4096)) (by decide +kernel)
  simp only [Bool.and_eq_true, beq_iff_eq, List.all_eq_true, decide_eq_true_eq] at hp
  obtain ⟨⟨⟨⟨⟨hone, hent⟩, hname⟩, hb⟩, hb'⟩, hbase, hsize⟩ := hp
  rw [Bool.not_eq_true', decide_eq_false_iff_not] at hname
  refine ⟨s, m, m', L, hinit, hs, h₂, fun e he => (hent e he).1, wordsApart_of_length hone,
    fun hrel => ?_⟩
  have hin : In ((heldIn m L).runs ++ runs s.linker.layouts) (0xA000001 / 4096) := by
    refine ⟨⟨0, 1⟩, List.mem_append_left _ (List.mem_append_right _ ?_), ⟨by decide, by decide⟩⟩
    show _ ∈ L.rx.runs
    unfold Region.runs
    rw [hbase, hsize]
    decide
  -- no entry has a symbol with an address
  have hsame := hrel.others 0xA000001 hin fun e he S ⟨⟨sym, hsym, haddr⟩, _⟩ => by
    rw [(hent e he).2] at hsym
    cases hsym
    cases haddr with
    | absolute h => cases h
    | loaded hu => exact absurd rfl hu
    | kernel _ hS =>
      obtain ⟨ex, hex, hstr, _⟩ := hS
      rw [List.mem_singleton.1 hex] at hstr
      exact absurd hstr hname
  obtain ⟨b, hbyte, hzero⟩ := K.exists_of_holds hb
  obtain ⟨b', hbyte', hchanged⟩ := K.exists_of_holds hb'
  rw [hbyte, hbyte', Except.ok.injEq, eq_of_beq hzero, eq_of_beq hchanged] at hsame
  cases hsame

/-- The words of an object at `0x200000` whose section of code holds the two entries for it, at
offset 8: the section is copied to `0xA000000`, and the offset of the section of entries leads
there. The first entry adds the value 4 to the offset of the second. -/
def tableWords : List (ℕ × ℕ) :=
  headerWords 0x200428 ⟨shtProgbits, 6, 0x100, 32, 0, 4⟩ ++
    headerWords 0x200478 ⟨shtRel, 0, 0x9E00008, 16, 1, 4⟩ ++
    headerWords 0x2004A0 ⟨2, 0, 0x300, 16, 0, 4⟩ ++
    [(0x200108, 16), (0x20010C, r386_32), (0x200114, r386_32), (0x200304, 4),
      (0x20030C, 0xFFF10000)]

/-- The word of the second entry stays as it was: the first has moved the entry to another one. -/
theorem exists_table : ∃ s m m' L, Otherwise [] s (lowObject tableWords) m m' L := by
  obtain ⟨s, m, L, m', hinit, hs, h₂, hp⟩ := exists_relocated (kexpTable []) tableWords
    (lowObject tableWords)
    (p := fun m L m' => (entries (heldIn m L) (heldIn m L).obj.secHdrs).all (fun e =>
        decide (e.rel.offset + 4 ≤ e.sec.size ∧ e.rel.type = r386_32) &&
          (heldIn m L).obj.symbolByIndex e.rel.sym == some ⟨0, 4, shnAbs⟩) &&
      (entries (heldIn m L) (heldIn m L).obj.secHdrs).map (fun e => e.addr (heldIn m L)) ==
        [0xA000010, 0xA000000] &&
      (m.mm.vmm.read32 0xA000000).holds (· == 0) &&
      (m'.mm.vmm.read32 0xA000000).holds (· == 0)) (by decide +kernel)
  simp only [Bool.and_eq_true, beq_iff_eq, List.all_eq_true, decide_eq_true_eq] at hp
  obtain ⟨⟨⟨hent, haddrs⟩, hw⟩, hw'⟩ := hp
  have hapart : WordsApart (Exported [] (bytesOf m)) (heldIn m L) := by
    have hpairs : [0xA000010, 0xA000000].Pairwise fun a b : ℕ => a + 4 ≤ b ∨ b + 4 ≤ a := by decide
    rw [← haddrs, List.pairwise_map] at hpairs
    exact hpairs.imp fun h _ _ => h
  refine ⟨s, m, m', L, hinit, hs, h₂, fun e he => (hent e he).1.1, hapart, fun hrel => ?_⟩
  obtain ⟨e, he, haddr⟩ := List.mem_map.1 (by
    rw [haddrs]
    exact List.mem_cons_of_mem _ (List.mem_singleton_self _) :
    0xA000000 ∈ (entries (heldIn m L) (heldIn m L).obj.secHdrs).map fun e => e.addr (heldIn m L))
  obtain ⟨⟨_, htype⟩, hsym⟩ := hent e he
  obtain ⟨A, w, hA, hread, hval, _⟩ := hrel.words e he 4
    ⟨⟨_, hsym, .absolute rfl⟩, Or.inl htype⟩
  rw [haddr] at hA hread
  obtain ⟨A', hA', hzero⟩ := K.exists_of_holds hw
  obtain ⟨w', hread', hzero'⟩ := K.exists_of_holds hw'
  rw [hA', Except.ok.injEq, eq_of_beq hzero] at hA
  rw [hread', Except.ok.injEq, eq_of_beq hzero'] at hread
  rw [← hA, ← hread] at hval
  exact absurd (hval htype) (by decide)

/-- A name with the hash of another, and entries that change each other. -/
theorem relocated_otherwise :
    (∃ s m m' L, Otherwise [⟨apiName, 0x123000⟩] s nameObject m m' L) ∧
      ∃ s m m' L, Otherwise [] s (lowObject tableWords) m m' L :=
  ⟨exists_name, exists_table⟩

end LiveLinker

end Ospp
