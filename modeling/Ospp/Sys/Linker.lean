import Ospp.Lib.Traced
import Ospp.Mm.Access
import Ospp.Sys.ModuleSpace

/-!
# The module linker

`Linker` from `sys/ld.hpp` and `sys/ld.cpp`: it places the sections of a relocatable object in two
regions of the module window, copies them there, and applies the relocations. `load` and `unload`
follow the source statement by statement; arithmetic is that of 32-bit words.

An object is read through its header pointer, at whatever address the fields of the object lead to.
Here these bytes are an image that stays the same during a load, all of which can be read: this is
what a load does for an object that lies apart from the module window and the heap (`load_held`).
What `load` writes in the window is recorded: every write is an event of the trace, with the section
it is meant for.

The sections, the section map and the object itself live on the kernel heap; they are plain values
here, and `delete` is forgetting them. `LiveLinker` has the same functions over one memory: there
what is read of an object may have been written by the load, and every `new` and `delete` is a call
of the heap.
-/

namespace Ospp

/-! ## Objects -/

structure SectionHeader where
  type : ℕ
  flags : ℕ
  offset : ℕ
  size : ℕ
  info : ℕ
  addralign : ℕ
  deriving DecidableEq, Repr

structure Symbol where
  name : ℕ
  value : ℕ
  shndx : ℕ
  deriving DecidableEq, Repr

structure Rel where
  offset : ℕ
  info : ℕ

def shtNull : ℕ := 0

def shtProgbits : ℕ := 1

def shtNobits : ℕ := 8

def shtRel : ℕ := 9

def shfWrite : ℕ := 1

def shfAlloc : ℕ := 2

def shfExecinstr : ℕ := 4

def shnUndef : ℕ := 0

def shnAbs : ℕ := 0xfff1

def shnCommon : ℕ := 0xfff2

def r386_32 : ℕ := 1

def r386_PC32 : ℕ := 2

/-- `kstd::ELF32::Object`. The memory the object is read from, as it is at one moment, and the constant
fields of the class: the header, the offset of the section headers and their number, and the section
headers of `.symtab`, `.strtab`, `.dynsym` and `.dynstr`, null when there is no such section.
`LiveLinker` does not use the image. -/
structure Object where
  image : Mem
  hdr : UInt32
  shoff : UInt32
  secHdrsNum : UInt16
  symtab : UInt32
  strtab : UInt32
  dynsym : UInt32 := 0
  dynstr : UInt32 := 0

namespace Object

/-- `header_offset`: an address. -/
def headerOffset (o : Object) (offset : ℕ) : ℕ := Word32.add o.hdr.toNat offset

def sectionHeader (o : Object) (p : ℕ) : SectionHeader where
  type := o.image.read32 (p + 4)
  flags := o.image.read32 (p + 8)
  offset := o.image.read32 (p + 16)
  size := o.image.read32 (p + 20)
  info := o.image.read32 (p + 28)
  addralign := o.image.read32 (p + 32)

/-- `sec_hdrs[i]`. -/
def secHdr (o : Object) (i : ℕ) : SectionHeader :=
  o.sectionHeader (o.headerOffset o.shoff.toNat + 40 * i)

/-- The section headers, in order. -/
def secHdrs (o : Object) : List SectionHeader := (List.range o.secHdrsNum.toNat).map o.secHdr

/-- `symbol_by_index`. -/
def symbolByIndex (o : Object) (i : ℕ) : Option Symbol :=
  if o.symtab = 0 then none
  else
    let p := o.headerOffset (o.sectionHeader o.symtab.toNat).offset + 16 * i
    some
      { name := o.image.read32 p
        value := o.image.read32 (p + 4)
        shndx := (o.image.read8 (p + 14)).toNat + 256 * (o.image.read8 (p + 15)).toNat }

/-- The entries of a relocation section. -/
def rels (o : Object) (sec : SectionHeader) : List Rel :=
  (List.range (sec.size / 8)).map fun j =>
    ⟨o.image.read32 (o.headerOffset sec.offset + 8 * j),
      o.image.read32 (o.headerOffset sec.offset + 8 * j + 4)⟩

end Object

/-- `REL_SYM`. -/
def Rel.sym (r : Rel) : ℕ := r.info / 256

/-- `REL_TYPE`. -/
def Rel.type (r : Rel) : ℕ := r.info % 256

/-! ## Exported symbols -/

structure KexpEntry where
  nameHash : ℕ
  addr : ℕ

/-- The loop of `hash_fold32_cstr` at address `a`. A string without end in the whole address space
is hashed for ever. -/
def hashFold32Cstr (m : Mem) : ℕ → ℕ → UInt64 → K UInt32
  | 0, _, _ => .error .diverged
  | fuel + 1, a, h =>
    let b := m.read8 a
    if b = 0 then .ok (h ^^^ (h >>> 32)).toUInt32
    else hashFold32Cstr m fuel (a + 1) ((h ^^^ b.toUInt64) * 1099511628211)

/-- `kexp::lookup`. -/
def kexpLookup (tab : List KexpEntry) (m : Mem) (name : ℕ) : K (Option KexpEntry) :=
  if name = 0 then .ok none
  else do
    let nh ← hashFold32Cstr m 4294967296 name 1469598103934665603
    return tab.find? fun e => e.nameHash == nh.toNat

/-! ## Layouts -/

namespace Linker

inductive Access where
  | N | R | W | RW | X | RX | WX | RWX
  deriving DecidableEq, Repr

inductive SecKind where
  | unknown | progbits | nobits
  deriving DecidableEq, Repr

structure Section where
  /-- The index of its header, which stands for the address of the object. -/
  idx : ℕ
  access : Access
  kind : SecKind
  align : ℕ
  fileOff : ℕ
  regOff : ℕ
  size : ℕ
  shFlags : ℕ
  deriving DecidableEq, Repr

def Section.hasFlag (s : Section) (flag : ℕ) : Bool := (s.shFlags &&& flag) == flag

/-- The offset is one of the section's bytes in its region. -/
def Section.Has (s : Section) (x : ℕ) : Prop := s.regOff ≤ x ∧ x < s.regOff + s.size

structure Region where
  base : ℕ
  size : ℕ
  sections : List Section

/-- Which of the two regions of a layout. -/
inductive Which where
  | rx | rw
  deriving DecidableEq, Repr

structure Layout where
  obj : Object
  rx : Region
  rw : Region
  /-- The section map. -/
  map : ℕ → Option (Which × Section)

/-- The section as `append` places it. -/
def Region.place (r : Region) (s : Section) : Section :=
  { s with regOff := Word32.alignUp r.size s.align }

def Region.append (r : Region) (s : Section) : Region :=
  let s := r.place s
  { r with sections := r.sections ++ [s], size := Word32.add s.regOff s.size }

namespace Layout

/-- A new layout for an object. -/
def new (o : Object) : Layout := ⟨o, ⟨0, 0, []⟩, ⟨0, 0, []⟩, fun _ => none⟩

def region (L : Layout) : Which → Region
  | .rx => L.rx
  | .rw => L.rw

def setRegion (L : Layout) (r : Region) : Which → Layout
  | .rx => { L with rx := r }
  | .rw => { L with rw := r }

/-- Append a section to a region and enter it in the map. -/
def append (L : Layout) (wh : Which) (s : Section) : Layout :=
  { L.setRegion ((L.region wh).append s) wh with
    map := fun j => if j = s.idx then some (wh, (L.region wh).place s) else L.map j }

end Layout

def accessIsLoadable : Access → Bool
  | .RX => true
  | .R => true
  | .RW => true
  | _ => false

def validateRegionSectionBounds (reg : Region) (sec : Section) (extra : ℕ) : Bool :=
  if reg.size < sec.regOff then false
  else if reg.size < sec.size then false
  else if reg.size < Word32.add sec.regOff sec.size then false
  else if extra ≠ 0 ∧ reg.size < Word32.add sec.regOff extra then false
  else true

/-- The section `stage0` makes of header `i`, before it is placed. -/
def newSection (i : ℕ) (sec : SectionHeader) : Section :=
  let s : Section :=
    { idx := i
      access := .N
      kind := if sec.type = shtProgbits then .progbits
        else if sec.type = shtNobits then .nobits else .unknown
      align := if sec.addralign ≠ 0 then sec.addralign else 1
      fileOff := sec.offset
      regOff := 0
      size := sec.size
      shFlags := sec.flags }
  { s with access :=
      if s.hasFlag shfExecinstr then .RX else if s.hasFlag shfWrite then .RW else .R }

/-- The body of the loop of `stage0`. -/
def stage0Section (L : Layout) (i : ℕ) (sec : SectionHeader) : Layout :=
  if sec.flags &&& shfAlloc = 0 then L
  else if sec.type = shtNull ∨ sec.size = 0 then L
  else
    let s := newSection i sec
    if !accessIsLoadable s.access then L
    else match s.access with
      | .RX => L.append .rx s
      | .R => L.append .rw s
      | .RW => L.append .rw s
      | _ => L

def stage0 (L : Layout) : Layout × Bool :=
  let o := L.obj
  if o.headerOffset o.shoff.toNat = 0 ∨ o.secHdrsNum = 0 then (L, false)
  else
    let L := (List.range o.secHdrsNum.toNat).foldl (fun L i => stage0Section L i (o.secHdr i)) L
    ({ L with
      rx := { L.rx with size := Word32.alignUp L.rx.size pageSize }
      rw := { L.rw with size := Word32.alignUp L.rw.size pageSize } }, true)

/-! ## Loading -/

/-- A write of `len` bytes in the module window, for the section `sec` of the layout. -/
structure Write where
  addr : ℕ
  len : ℕ
  layout : Layout
  which : Which
  sec : Section

/-- The module space with other contents of memory. -/
def withVmm (m : ModuleSpace) (vmm : Vmm) : ModuleSpace := { m with mm := ⟨m.mm.pmm, vmm⟩ }

/-- The bytes a section is filled with. -/
def contents (o : Object) (sec : Section) (k : ℕ) : UInt8 :=
  match sec.kind with
  | .progbits => o.image.read8 (o.headerOffset sec.fileOff + k)
  | _ => 0

/-- The checks of `stage1` on a section: its bounds, and the address its bytes are copied from. -/
def copyable (L : Layout) (wh : Which) (sec : Section) : Bool :=
  validateRegionSectionBounds (L.region wh) sec 0 &&
    !(sec.kind == .progbits && L.obj.headerOffset sec.fileOff == 0)

/-- The loop of `stage1`. -/
def copySections (L : Layout) (wh : Which) : List Section → ModuleSpace →
    Traced Write Halt (ModuleSpace × Bool)
  | [], m => pure (m, true)
  | sec :: secs, m =>
    if !copyable L wh sec then pure (m, false)
    else do
      let dst := Word32.add (L.region wh).base sec.regOff
      Traced.emit ⟨dst, sec.size, L, wh, sec⟩
      let vmm ← Traced.lift (m.mm.vmm.writeBytes dst (contents L.obj sec) sec.size)
      copySections L wh secs (withVmm m vmm)

def stage1 (m : ModuleSpace) (L : Layout) (wh : Which) :
    Traced Write Halt (ModuleSpace × Layout × Bool) :=
  let reg := L.region wh
  if reg.size = 0 then pure (m, L, true)
  else do
    let (m, base) ← Traced.lift (m.mapRegion (reg.size / pageSize))
    match base with
    | none => pure (m, L, false)
    | some base => do
      let L := L.setRegion { reg with base := base } wh
      let (m, ok) ← copySections L wh reg.sections m
      pure (m, L, ok)

/-- What becomes of a symbol: an error, an entry that is left alone, or the value `S`. -/
inductive Resolution where
  | fail
  | skip
  | value (S : ℕ)
  deriving DecidableEq

/-- The switch on `sym->shndx`. -/
def resolve (tab : List KexpEntry) (L : Layout) (sym : Symbol) : K Resolution :=
  let o := L.obj
  if sym.shndx = shnUndef then do
    let strtab := (o.sectionHeader o.strtab.toNat).offset
    let e ← kexpLookup tab o.image (Word32.add (o.headerOffset strtab) sym.name)
    match e with
    | some e => return .value e.addr
    | none => return .skip
  else if sym.shndx = shnAbs then .ok (.value sym.value)
  else if sym.shndx = shnCommon then .ok .skip
  else if o.secHdrsNum.toNat ≤ sym.shndx then .ok .fail
  else
    match L.map sym.shndx with
    | none => .ok .fail
    | some (wh, sec) =>
      let base := (L.region wh).base
      if base = 0 then .ok .fail
      else .ok (.value (Word32.add (Word32.add base sec.regOff) sym.value))

/-- The address an entry patches. -/
def patchAddr (L : Layout) (wh : Which) (sec : Section) (r : Rel) : ℕ :=
  Word32.add (Word32.add (L.region wh).base sec.regOff) r.offset

/-- The body of the inner loop of `stage2`; the result is false when `stage2` fails. -/
def relocate (tab : List KexpEntry) (L : Layout) (wh : Which) (sec : Section) (r : Rel)
    (m : ModuleSpace) : Traced Write Halt (ModuleSpace × Bool) :=
  match L.obj.symbolByIndex r.sym with
  | none => pure (m, false)
  | some sym =>
    if sec.size < Word32.add r.offset 4 then pure (m, false)
    else do
      let P := patchAddr L wh sec r
      let A ← Traced.lift (m.mm.vmm.read32 P)
      let res ← Traced.lift (resolve tab L sym)
      match res with
      | .fail => pure (m, false)
      | .skip => pure (m, true)
      | .value S =>
        if r.type = r386_32 then do
          Traced.emit ⟨P, 4, L, wh, sec⟩
          let vmm ← Traced.lift (m.mm.vmm.write32 P (Word32.add S A))
          pure (withVmm m vmm, true)
        else if r.type = r386_PC32 then do
          Traced.emit ⟨P, 4, L, wh, sec⟩
          let vmm ← Traced.lift (m.mm.vmm.write32 P (Word32.sub (Word32.add S A) P))
          pure (withVmm m vmm, true)
        else pure (m, false)

/-- The inner loop of `stage2`. -/
def relocateAll (tab : List KexpEntry) (L : Layout) (wh : Which) (sec : Section) : List Rel →
    ModuleSpace → Traced Write Halt (ModuleSpace × Bool)
  | [], m => pure (m, true)
  | r :: rs, m => do
    let (m, ok) ← relocate tab L wh sec r m
    if ok then relocateAll tab L wh sec rs m else pure (m, false)

/-- What `stage2` finds at a section header: an error, nothing to do, or entries for a section. -/
inductive RelTarget where
  | fail
  | skip
  | apply (wh : Which) (sec : Section)

/-- The checks of the outer loop of `stage2`. -/
def relTarget (L : Layout) (h : SectionHeader) : RelTarget :=
  if h.type ≠ shtRel then .skip
  else if L.obj.secHdrsNum.toNat ≤ h.info % 65536 then .fail
  else
    match L.map (h.info % 65536) with
    | none => .skip
    | some (wh, sec) =>
      if (L.region wh).base = 0 then .fail
      else if L.obj.headerOffset h.offset = 0 ∧ h.size ≠ 0 then .fail
      else .apply wh sec

/-- The outer loop of `stage2`. -/
def relocateSections (tab : List KexpEntry) (L : Layout) : List SectionHeader → ModuleSpace →
    Traced Write Halt (ModuleSpace × Bool)
  | [], m => pure (m, true)
  | h :: hs, m =>
    match relTarget L h with
    | .fail => pure (m, false)
    | .skip => relocateSections tab L hs m
    | .apply wh sec => do
      let (m, ok) ← relocateAll tab L wh sec (L.obj.rels h) m
      if ok then relocateSections tab L hs m else pure (m, false)

def stage2 (tab : List KexpEntry) (m : ModuleSpace) (L : Layout) :
    Traced Write Halt (ModuleSpace × Bool) :=
  relocateSections tab L L.obj.secHdrs m

def unloadRegionLocked (m : ModuleSpace) (reg : Region) : K ModuleSpace :=
  if reg.base = 0 ∨ reg.size = 0 then .ok m
  else m.unmapRegion reg.base (reg.size / pageSize)

/-- The regions of a layout are given back, `rw` first. -/
def unloadRegions (m : ModuleSpace) (L : Layout) : K ModuleSpace := do
  let m ← unloadRegionLocked m L.rw
  unloadRegionLocked m L.rx

end Linker

/-- The linker: its bitmap together with the memory managers, and its table of layouts. A layout
is referred to by its slot. -/
structure Linker where
  space : ModuleSpace
  layouts : StaticArray Linker.Layout 64

namespace Linker

/-- `unload_locked`. A slot that holds no layout is not tracked. -/
def unloadLocked (s : Linker) (i : ℕ) : K Linker :=
  match s.layouts.ptr i with
  | none => .ok s
  | some L => do
    let m ← unloadRegions s.space L
    return ⟨m, s.layouts.erase i⟩

/-- The error exit of `load`: the new layout `L` in slot `i` is unloaded. -/
def abort (m : ModuleSpace) (layouts : StaticArray Layout 64) (i : ℕ) (L : Layout) :
    K (Linker × Option ℕ) := do
  let s ← unloadLocked ⟨m, layouts.modify i fun _ => L⟩ i
  return (s, none)

/-- `load`, with the slot of the layout as result. While it works the new layout is a value; it is
written to its slot when `load` is left. -/
def load (tab : List KexpEntry) (s : Linker) : Option Object →
    Traced Write Halt (Linker × Option ℕ)
  | none => pure (s, none)
  | some o => do
    let (layouts, i) ← Traced.lift (s.layouts.emplace (Layout.new o))
    let (L, ok) := stage0 (Layout.new o)
    if !ok then Traced.lift (abort s.space layouts i L)
    else
      let (m, L, ok) ← stage1 s.space L .rx
      if !ok then Traced.lift (abort m layouts i L)
      else
        let (m, L, ok) ← stage1 m L .rw
        if !ok then Traced.lift (abort m layouts i L)
        else
          let (m, ok) ← stage2 tab m L
          if !ok then Traced.lift (abort m layouts i L)
          else pure (⟨m, layouts.modify i fun _ => L⟩, some i)

end Linker

end Ospp
