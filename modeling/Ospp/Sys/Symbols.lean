import Ospp.Sys.Kexp
import Ospp.Sys.LinkerRestore

/-!
# Symbols by name

The other way to a symbol's address than a relocation: `Layout::find_symbol` looks a name up in
`.dynsym` and then in `.symtab`, and takes the first entry that has it.

`Object.create` is the constructor of an object, with the searches for its four tables by the names
of their sections, for a file that can be read all through. In live memory, where reads may fault,
it is `LiveLinker.create`.
-/

namespace Ospp

/-! ## Strings -/

/-- `strcmp` of the string at `a` with `s`. -/
def strcmp (m : Mem) : ℕ → List UInt8 → ℤ
  | a, [] => (m.read8 a).toNat
  | a, b :: s =>
    if m.read8 a ≠ 0 ∧ m.read8 a = b then strcmp m (a + 1) s
    else (m.read8 a).toNat - b.toNat

namespace Object

/-- `find_section`: the address of the first section header with the name, or null. -/
def findSection (m : Mem) (hdr : ℕ) (name : List UInt8) : UInt32 :=
  let secHdrs := Word32.add hdr (m.read32 (hdr + 32))
  let shstr := m.read32 (secHdrs + 40 * m.read16 (hdr + 50) + 16)
  let found := (List.range (m.read16 (hdr + 48))).find? fun i =>
    let secname := Word32.add (Word32.add hdr shstr) (m.read32 (secHdrs + 40 * i))
    secname ≠ 0 ∧ strcmp m secname name = 0
  match found with
  | some i => .ofNat (secHdrs + 40 * i)
  | none => 0

/-- `Object::create`. -/
def create (m : Mem) (ptr : UInt32) : Option Object :=
  let hdr := ptr.toNat
  if m.read8 hdr ≠ 0x7F ∨ m.read8 (hdr + 1) ≠ 69 ∨ m.read8 (hdr + 2) ≠ 76 ∨
      m.read8 (hdr + 3) ≠ 70 then none
  else if m.read16 (hdr + 18) ≠ 3 then none
  else some
    { image := m
      hdr := ptr
      shoff := .ofNat (m.read32 (hdr + 32))
      secHdrsNum := .ofNat (m.read16 (hdr + 48))
      -- ".symtab", ".strtab", ".dynsym", ".dynstr"
      symtab := findSection m hdr [46, 115, 121, 109, 116, 97, 98]
      strtab := findSection m hdr [46, 115, 116, 114, 116, 97, 98]
      dynsym := findSection m hdr [46, 100, 121, 110, 115, 121, 109]
      dynstr := findSection m hdr [46, 100, 121, 110, 115, 116, 114] }

/-- The symbol table that a section header is the one of. -/
def symbols (o : Object) (sym : UInt32) : List Symbol :=
  let h := o.sectionHeader sym.toNat
  (List.range (h.size / 16)).map fun i =>
    let p := o.headerOffset h.offset + 16 * i
    { name := o.image.read32 p
      value := o.image.read32 (p + 4)
      shndx := (o.image.read8 (p + 14)).toNat + 256 * (o.image.read8 (p + 15)).toNat }

/-- The test of `_find_symbol`. -/
def isNamed (o : Object) (str : UInt32) (name : CString) (s : Symbol) : Bool :=
  s.name ≠ 0 ∧
    strcmp o.image (Word32.add (o.headerOffset (o.sectionHeader str.toNat).offset) s.name)
      name.bytes = 0

/-- `_find_symbol`. -/
def findSymbolIn (o : Object) (name : CString) (sym str : UInt32) : Option Symbol :=
  if sym = 0 ∨ str = 0 then none else (o.symbols sym).find? (o.isNamed str name)

/-- `Object::find_symbol`. -/
def findSymbol (o : Object) (name : CString) : Option Symbol :=
  match o.findSymbolIn name o.dynsym o.dynstr with
  | some s => some s
  | none => o.findSymbolIn name o.symtab o.strtab

theorem findSymbol_of_dynamic {o : Object} {name : CString} {s : Symbol}
    (h : o.findSymbolIn name o.dynsym o.dynstr = some s) : o.findSymbol name = some s := by
  unfold findSymbol
  rw [h]

theorem findSymbol_of_static {o : Object} {name : CString}
    (h : o.findSymbolIn name o.dynsym o.dynstr = none) :
    o.findSymbol name = o.findSymbolIn name o.symtab o.strtab := by
  unfold findSymbol
  rw [h]

end Object

namespace Linker

/-- The address `find_symbol` gives for an entry, or `none` for null. -/
def Layout.symbolAddr (L : Layout) (s : Symbol) : Option ℕ :=
  if s.shndx = shnUndef then none
  else if s.shndx = shnCommon then none
  else if L.obj.secHdrsNum.toNat ≤ s.shndx then none
  else
    match L.map s.shndx with
    | none => none
    | some (wh, sec) => some (Word32.add (Word32.add (L.region wh).base sec.regOff) s.value)

/-- `Layout::find_symbol`. -/
def Layout.findSymbol (L : Layout) (name : CString) : Option ℕ :=
  (L.obj.findSymbol name).bind L.symbolAddr

end Linker

/-! ## Entries of a name -/

/-- An entry has a name, in the string table `str`. -/
def Symbol.Named (s : Symbol) (o : Object) (str : UInt32) (name : CString) : Prop :=
  s.name ≠ 0 ∧ HoldsString o.image
    (Word32.add (o.headerOffset (o.sectionHeader str.toNat).offset) s.name) name.bytes

namespace Linker

end Linker

end Ospp
