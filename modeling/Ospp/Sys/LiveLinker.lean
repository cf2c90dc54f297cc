import Ospp.Mm.HeapWork
import Ospp.Sys.Linker

/-!
# The linker in the memory it writes

`Linker` from `sys/ld.cpp` once more, over one memory. `header_offset` adds any 32-bit number to the
address of an object, so what `load` reads of the object may lie in the module window, or in the
heap, and may have been changed a moment ago: here every read goes through the page tables at the
point where the source has it, and is a page fault when nothing is mapped there.

The section map, the sections and the object live on the kernel heap. Each `new` and each `delete`
is a call of the heap (`HeapEffect`), which may grow or shrink the heap, store bytes, or stop the
kernel. The fields of these objects are values; what is read of them is never a place that the
linker writes through another name.
-/

namespace Ospp

namespace Vmm

/-- The little-endian halfword at an address. -/
def read16 (m : Vmm) (a : ℕ) : K ℕ := do
  let b₀ ← m.readByte a
  let b₁ ← m.readByte (Word32.add a 1)
  return b₀.toNat + 256 * b₁.toNat

/-- The loop of `memcpy`. -/
def copyBytes (m : Vmm) (dst src : ℕ) : ℕ → K Vmm
  | 0 => .ok m
  | n + 1 => do
    let m ← m.copyBytes dst src n
    let b ← m.readByte (Word32.add src n)
    m.writeByte (Word32.add dst n) b

end Vmm

/-- The linker, and `endAddr` of the heap. -/
structure LiveLinker where
  linker : Linker
  heapEnd : ℕ

namespace LiveLinker

open Linker

/-! ## The heap -/

/-- What the calls of the heap in a load do: `new SecMap[]`, the `new Section` for each header, and,
if the load fails, what deletes the layout. -/
structure LoadCalls where
  map : List HeapEffect
  sections : ℕ → List HeapEffect
  release : List HeapEffect

def heapCall (m : ModuleSpace) (endAddr : ℕ) (as : List HeapEffect) : K (ModuleSpace × ℕ) := do
  let (mm, endAddr) ← m.mm.heapCall endAddr as
  return (⟨m.lmm, mm⟩, endAddr)

/-! ## Planning -/

/-- `&sec_hdrs[i]`. -/
def secHdr (o : Object) (i : ℕ) : ℕ := Word32.add (o.headerOffset o.shoff.toNat) (40 * i)

/-- The end of the body of the loop of `stage0`: the section goes to a region. -/
def place (L : Layout) (s : Section) : Layout :=
  if !accessIsLoadable s.access then L
  else match s.access with
    | .RX => L.append .rx s
    | .R => L.append .rw s
    | .RW => L.append .rw s
    | _ => L

/-- The body of the loop of `stage0`. -/
def stage0Section (calls : LoadCalls) (m : ModuleSpace) (endAddr : ℕ) (L : Layout) (i : ℕ) :
    K (ModuleSpace × ℕ × Layout) := do
  let sec := secHdr L.obj i
  let flags ← m.mm.vmm.read32 (Word32.add sec 8)
  if flags &&& shfAlloc = 0 then return (m, endAddr, L)
  else
    let type ← m.mm.vmm.read32 (Word32.add sec 4)
    if type = shtNull then return (m, endAddr, L)
    else
      let size ← m.mm.vmm.read32 (Word32.add sec 20)
      if size = 0 then return (m, endAddr, L)
      else
        let (m, endAddr) ← heapCall m endAddr (calls.sections i)
        -- the fields are read again
        let type ← m.mm.vmm.read32 (Word32.add sec 4)
        let addralign ← m.mm.vmm.read32 (Word32.add sec 32)
        let offset ← m.mm.vmm.read32 (Word32.add sec 16)
        let size ← m.mm.vmm.read32 (Word32.add sec 20)
        let flags ← m.mm.vmm.read32 (Word32.add sec 8)
        return (m, endAddr, place L (newSection i ⟨type, flags, offset, size, 0, addralign⟩))

def stage0Sections (calls : LoadCalls) : List ℕ → ModuleSpace → ℕ → Layout →
    K (ModuleSpace × ℕ × Layout)
  | [], m, endAddr, L => .ok (m, endAddr, L)
  | i :: is, m, endAddr, L => do
    let (m, endAddr, L) ← stage0Section calls m endAddr L i
    stage0Sections calls is m endAddr L

def stage0 (calls : LoadCalls) (m : ModuleSpace) (endAddr : ℕ) (L : Layout) :
    K (ModuleSpace × ℕ × Layout × Bool) :=
  let o := L.obj
  if o.headerOffset o.shoff.toNat = 0 ∨ o.secHdrsNum = 0 then .ok (m, endAddr, L, false)
  else do
    let (m, endAddr) ← heapCall m endAddr calls.map
    let (m, endAddr, L) ← stage0Sections calls (List.range o.secHdrsNum.toNat) m endAddr L
    return (m, endAddr, { L with
      rx := { L.rx with size := Word32.alignUp L.rx.size pageSize }
      rw := { L.rw with size := Word32.alignUp L.rw.size pageSize } }, true)

/-! ## Copying -/

/-- Why a write is made: a section is copied or zeroed, or an entry is applied. -/
inductive Cause where
  | copy
  | patch (r : Rel)

/-- A write in the module window, for a section of the new layout. -/
structure Event where
  layout : Layout
  which : Which
  sec : Section
  cause : Cause

/-- The `memcpy` or `memset` of a section. -/
def fill (m : Vmm) (o : Object) (sec : Section) (dst : ℕ) : K Vmm :=
  match sec.kind with
  | .progbits => m.copyBytes dst (o.headerOffset sec.fileOff) sec.size
  | _ => m.writeBytes dst (fun _ => 0) sec.size

/-- The loop of `stage1`. -/
def copySections (L : Layout) (wh : Which) : List Section → ModuleSpace →
    Traced Event Halt (ModuleSpace × Bool)
  | [], m => pure (m, true)
  | sec :: secs, m =>
    if !copyable L wh sec then pure (m, false)
    else do
      let dst := Word32.add (L.region wh).base sec.regOff
      Traced.emit ⟨L, wh, sec, .copy⟩
      let vmm ← Traced.lift (fill m.mm.vmm L.obj sec dst)
      copySections L wh secs (withVmm m vmm)

def stage1 (m : ModuleSpace) (L : Layout) (wh : Which) :
    Traced Event Halt (ModuleSpace × Layout × Bool) :=
  let reg := L.region wh
  if reg.size = 0 then pure (m, L, true)
  else do
    let (m, base) ← Traced.lift (m.mapRegion (reg.size / pageSize))
    match base with
    | none => pure (m, L, false)
    | some base => do
      let L := L.setRegion { reg with base := base } wh
      let (m, ok) ← copySections L wh reg.sections m
      pure (m, L, ok)

/-! ## Relocating -/

/-- The loop of `hash_fold32_cstr`. -/
def hashFold32Cstr (m : Vmm) : ℕ → ℕ → UInt64 → K UInt32
  | 0, _, _ => .error .diverged
  | fuel + 1, a, h => do
    let b ← m.readByte a
    if b = 0 then return (h ^^^ (h >>> 32)).toUInt32
    else hashFold32Cstr m fuel (Word32.add a 1) ((h ^^^ b.toUInt64) * 1099511628211)

/-- `kexp::lookup`. -/
def kexpLookup (tab : List KexpEntry) (m : Vmm) (name : ℕ) : K (Option KexpEntry) :=
  if name = 0 then .ok none
  else do
    let nh ← hashFold32Cstr m 4294967296 name 1469598103934665603
    return tab.find? fun e => e.nameHash == nh.toNat

/-- The switch on `sym->shndx`, for the symbol at address `sym`. -/
def resolve (tab : List KexpEntry) (L : Layout) (m : Vmm) (sym : ℕ) : K Resolution := do
  let o := L.obj
  let shndx ← m.read16 (Word32.add sym 14)
  if shndx = shnUndef then
    let strtab ← m.read32 (Word32.add o.strtab.toNat 16)
    let name ← m.read32 sym
    let e ← kexpLookup tab m (Word32.add (o.headerOffset strtab) name)
    match e with
    | some e => return .value e.addr
    | none => return .skip
  else if shndx = shnAbs then
    let value ← m.read32 (Word32.add sym 4)
    return .value value
  else if shndx = shnCommon then return .skip
  else if o.secHdrsNum.toNat ≤ shndx then return .fail
  else
    match L.map shndx with
    | none => return .fail
    | some (wh, sec) =>
      let base := (L.region wh).base
      if base = 0 then return .fail
      else
        let value ← m.read32 (Word32.add sym 4)
        return .value (Word32.add (Word32.add base sec.regOff) value)

/-- The body of the inner loop of `stage2`, for the entry at address `rel`. -/
def relocate (tab : List KexpEntry) (L : Layout) (wh : Which) (sec : Section) (rel : ℕ)
    (m : ModuleSpace) : Traced Event Halt (ModuleSpace × Bool) := do
  let info ← Traced.lift (m.mm.vmm.read32 (Word32.add rel 4))
  if L.obj.symtab = 0 then pure (m, false)
  else
    let symtab ← Traced.lift (m.mm.vmm.read32 (Word32.add L.obj.symtab.toNat 16))
    let sym := Word32.add (L.obj.headerOffset symtab) (16 * (info / 256))
    if sym = 0 then pure (m, false)
    else
      let offset ← Traced.lift (m.mm.vmm.read32 rel)
      let r : Rel := ⟨offset, info⟩
      if sec.size < Word32.add r.offset 4 then pure (m, false)
      else
        let P := patchAddr L wh sec r
        let A ← Traced.lift (m.mm.vmm.read32 P)
        let res ← Traced.lift (resolve tab L m.mm.vmm sym)
        match res with
        | .fail => pure (m, false)
        | .skip => pure (m, true)
        | .value S =>
          if r.type = r386_32 then do
            Traced.emit ⟨L, wh, sec, .patch r⟩
            let vmm ← Traced.lift (m.mm.vmm.write32 P (Word32.add S A))
            pure (withVmm m vmm, true)
          else if r.type = r386_PC32 then do
            Traced.emit ⟨L, wh, sec, .patch r⟩
            let vmm ← Traced.lift (m.mm.vmm.write32 P (Word32.sub (Word32.add S A) P))
            pure (withVmm m vmm, true)
          else pure (m, false)

/-- The inner loop of `stage2`, with the number of entries that are left. -/
def relocateAll (tab : List KexpEntry) (L : Layout) (wh : Which) (sec : Section) : ℕ → ℕ →
    ModuleSpace → Traced Event Halt (ModuleSpace × Bool)
  | 0, _, m => pure (m, true)
  | n + 1, rel, m => do
    let (m, ok) ← relocate tab L wh sec rel m
    if ok then relocateAll tab L wh sec n (Word32.add rel 8) m else pure (m, false)

/-- What `stage2` finds at a section header: an error, nothing to do, or `n` entries for a section,
from the address `rel` on. -/
inductive RelTarget where
  | fail
  | skip
  | apply (wh : Which) (sec : Section) (rel n : ℕ)

/-- The checks of the outer loop of `stage2`, for the header at address `sec`. -/
def relTarget (L : Layout) (m : Vmm) (sec : ℕ) : K RelTarget := do
  let type ← m.read32 (Word32.add sec 4)
  if type ≠ shtRel then return .skip
  else
    let info ← m.read32 (Word32.add sec 28)
    if L.obj.secHdrsNum.toNat ≤ info % 65536 then return .fail
    else
      match L.map (info % 65536) with
      | none => return .skip
      | some (wh, target) =>
        if (L.region wh).base = 0 then return .fail
        else
          let offset ← m.read32 (Word32.add sec 16)
          let size ← m.read32 (Word32.add sec 20)
          let rel := L.obj.headerOffset offset
          if rel = 0 ∧ size ≠ 0 then return .fail
          else return .apply wh target rel (size / 8)

/-- The outer loop of `stage2`. -/
def relocateSections (tab : List KexpEntry) (L : Layout) : List ℕ → ModuleSpace →
    Traced Event Halt (ModuleSpace × Bool)
  | [], m => pure (m, true)
  | i :: is, m => do
    let target ← Traced.lift (relTarget L m.mm.vmm (secHdr L.obj i))
    match target with
    | .fail => pure (m, false)
    | .skip => relocateSections tab L is m
    | .apply wh sec rel n => do
      let (m, ok) ← relocateAll tab L wh sec n rel m
      if ok then relocateSections tab L is m else pure (m, false)

def stage2 (tab : List KexpEntry) (m : ModuleSpace) (L : Layout) :
    Traced Event Halt (ModuleSpace × Bool) :=
  relocateSections tab L (List.range L.obj.secHdrsNum.toNat) m

/-! ## Loading and unloading -/

/-- `unload_locked`, with what the calls of the heap do that delete the layout. -/
def unloadLocked (s : LiveLinker) (i : ℕ) (release : List HeapEffect) : K LiveLinker :=
  match s.linker.layouts.ptr i with
  | none => .ok s
  | some L => do
    let m ← unloadRegions s.linker.space L
    let (m, endAddr) ← heapCall m s.heapEnd release
    return ⟨⟨m, s.linker.layouts.erase i⟩, endAddr⟩

/-- The error exit of `load`: the new layout `L` in slot `i` is unloaded. -/
def abort (m : ModuleSpace) (endAddr : ℕ) (layouts : StaticArray Layout 64) (i : ℕ) (L : Layout)
    (release : List HeapEffect) : K (LiveLinker × Option ℕ) := do
  let s ← unloadLocked ⟨⟨m, layouts.modify i fun _ => L⟩, endAddr⟩ i release
  return (s, none)

/-- `load`, with the slot of the layout as result. -/
def load (tab : List KexpEntry) (calls : LoadCalls) (s : LiveLinker) : Option Object →
    Traced Event Halt (LiveLinker × Option ℕ)
  | none => pure (s, none)
  | some o => do
    let (layouts, i) ← Traced.lift (s.linker.layouts.emplace (Layout.new o))
    let (m, endAddr, L, ok) ←
      Traced.lift (stage0 calls s.linker.space s.heapEnd (Layout.new o))
    if !ok then Traced.lift (abort m endAddr layouts i L calls.release)
    else
      let (m, L, ok) ← stage1 m L .rx
      if !ok then Traced.lift (abort m endAddr layouts i L calls.release)
      else
        let (m, L, ok) ← stage1 m L .rw
        if !ok then Traced.lift (abort m endAddr layouts i L calls.release)
        else
          let (m, ok) ← stage2 tab m L
          if !ok then Traced.lift (abort m endAddr layouts i L calls.release)
          else pure (⟨⟨m, layouts.modify i fun _ => L⟩, endAddr⟩, some i)

end LiveLinker

end Ospp
