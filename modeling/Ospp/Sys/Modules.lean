import Ospp.Sys.LinkerRelocation
import Ospp.Sys.LiveUnload
import Ospp.Sys.Symbols

/-!
# The module manager

`ModuleManager` from `sys/module.hpp`, over the linker in live memory: `registerModule` makes an
object of a file, links it and calls its `module_enter`; the destructor calls the `module_exit` of
every module and unloads it. `Kernel.destruct` is the part of `~Kernel` that takes the modules down:
the manager first, then the linker.

The code of a module is a parameter. It stores bytes wherever it likes except in page tables, calls
the heap, and may stop the kernel (`ModuleCode`).

The invariant (`ModuleManager.Inv`) is that the two tables agree slot by slot: the module in a slot
has the layout in the same slot. Failed registrations keep this, since they free the slot that the
linker has filled, and both tables fill their lowest free slot.
-/

namespace Ospp

open Trans

/-! ## Objects and symbols in memory -/

namespace LiveLinker

open Linker

/-- `strcmp` of the string at `a` with `s`. -/
def strcmp (m : Vmm) : ℕ → List UInt8 → K ℤ
  | a, [] => do
    let c ← m.readByte a
    return c.toNat
  | a, b :: s => do
    let c ← m.readByte a
    if c ≠ 0 ∧ c = b then strcmp m (Word32.add a 1) s else return c.toNat - b.toNat

/-- `section_name`. -/
def sectionName (m : Vmm) (hdr secHdrs i : ℕ) : K ℕ := do
  let shstrndx ← m.read16 (Word32.add hdr 50)
  let offset ← m.read32 (Word32.add secHdrs (40 * shstrndx + 16))
  let name ← m.read32 (Word32.add secHdrs (40 * i))
  return Word32.add (Word32.add hdr offset) name

/-- `find_section` among some of the section headers: the address of the first with the name, or
null. -/
def findSection (m : Vmm) (hdr secHdrs : ℕ) (name : List UInt8) : List ℕ → K UInt32
  | [] => .ok 0
  | i :: is => do
    let secname ← sectionName m hdr secHdrs i
    if secname = 0 then findSection m hdr secHdrs name is
    else
      let c ← strcmp m secname name
      if c = 0 then return .ofNat (Word32.add secHdrs (40 * i))
      else findSection m hdr secHdrs name is

/-- The bytes at an address, up to the first that differs. -/
def hasMagic (m : Vmm) : ℕ → List UInt8 → K Bool
  | _, [] => .ok true
  | a, b :: bs => do
    let c ← m.readByte a
    if c = b then hasMagic m (Word32.add a 1) bs else return false

/-- The constructor of an object, at the header `ptr`. -/
def construct (m : ModuleSpace) (ptr : UInt32) : K Object := do
  let hdr := ptr.toNat
  -- `phoff` and `phnum` are read, and not used any more
  let _ ← m.mm.vmm.read32 (Word32.add hdr 28)
  let shoff ← m.mm.vmm.read32 (Word32.add hdr 32)
  let _ ← m.mm.vmm.read16 (Word32.add hdr 44)
  let shnum ← m.mm.vmm.read16 (Word32.add hdr 48)
  let find := fun name =>
    findSection m.mm.vmm hdr (Word32.add hdr shoff) name (List.range shnum)
  -- ".symtab", ".strtab", ".dynsym", ".dynstr"
  let symtab ← find [46, 115, 121, 109, 116, 97, 98]
  let strtab ← find [46, 115, 116, 114, 116, 97, 98]
  let dynsym ← find [46, 100, 121, 110, 115, 121, 109]
  let dynstr ← find [46, 100, 121, 110, 115, 116, 114]
  return ⟨bytesOf m, ptr, .ofNat shoff, .ofNat shnum, symtab, strtab, dynsym, dynstr⟩

/-- `Object::create`, with what the call of the heap does in `new Object`. -/
def create (as : List HeapEffect) (m : ModuleSpace) (endAddr : ℕ) (ptr : UInt32) :
    K (ModuleSpace × ℕ × Option Object) := do
  let magic ← hasMagic m.mm.vmm ptr.toNat [0x7F, 69, 76, 70]
  if !magic then return (m, endAddr, none)
  else
    let machine ← m.mm.vmm.read16 (Word32.add ptr.toNat 18)
    if machine ≠ 3 then return (m, endAddr, none)
    else
      let (m, endAddr) ← heapCall m endAddr as
      let o ← construct m ptr
      return (m, endAddr, some o)

/-- The loop of `_find_symbol`: the address of the first symbol with the name, or null. -/
def findNamed (m : Vmm) (strtab symtab : ℕ) (name : List UInt8) : List ℕ → K ℕ
  | [] => .ok 0
  | i :: is => do
    let sym := Word32.add symtab (16 * i)
    let symname ← m.read32 sym
    if symname = 0 then findNamed m strtab symtab name is
    else
      let c ← strcmp m (Word32.add strtab symname) name
      if c = 0 then return sym else findNamed m strtab symtab name is

/-- `_find_symbol`. -/
def findSymbolIn (o : Object) (m : Vmm) (name : CString) (sym str : UInt32) : K ℕ :=
  if sym = 0 ∨ str = 0 then .ok 0
  else do
    let strOffset ← m.read32 (Word32.add str.toNat 16)
    let symOffset ← m.read32 (Word32.add sym.toNat 16)
    let size ← m.read32 (Word32.add sym.toNat 20)
    findNamed m (o.headerOffset strOffset) (o.headerOffset symOffset) name.bytes
      (List.range (size / 16))

/-- `Object::find_symbol`. -/
def objectSymbol (o : Object) (m : Vmm) (name : CString) : K ℕ := do
  let sym ← findSymbolIn o m name o.dynsym o.dynstr
  if sym ≠ 0 then return sym else findSymbolIn o m name o.symtab o.strtab

/-- `Layout::find_symbol`. -/
def findSymbol (L : Layout) (m : Vmm) (name : CString) : K ℕ := do
  let sym ← objectSymbol L.obj m name
  if sym = 0 then return 0
  else
    let shndx ← m.read16 (Word32.add sym 14)
    if shndx = shnUndef then return 0
    else if shndx = shnCommon then return 0
    else if L.obj.secHdrsNum.toNat ≤ shndx then return 0
    else
      match L.map shndx with
      | none => return 0
      | some (wh, sec) =>
        let value ← m.read32 (Word32.add sym 4)
        return Word32.add (Word32.add (L.region wh).base sec.regOff) value

/-- `layout->find_symbol(name)` for the layout in slot `i`, 0 for null. -/
def symbolAddress (s : LiveLinker) (i : ℕ) (name : CString) : K ℕ :=
  match s.linker.layouts.ptr i with
  | none => .ok 0
  | some L => findSymbol L s.linker.space.mm.vmm name

end LiveLinker

/-! ## Modules -/

/-- A call of a function of a module. -/
structure ModuleCall where
  addr : ℕ
  arg : ℕ
  deriving DecidableEq, Repr

/-- The code of modules: what a call does in the memory it finds. The number it returns is only
logged. -/
def ModuleCode : Type := ModuleCall → Mm → K (List HeapEffect)

/-- `Module`. A layout is referred to by its slot, and an address may be null. -/
structure Module where
  layout : Option ℕ
  enter : ℕ
  exit : ℕ
  deriving DecidableEq, Repr

/-- "module_enter" -/
def moduleEnter : CString :=
  ⟨[109, 111, 100, 117, 108, 101, 95, 101, 110, 116, 101, 114], by decide⟩

/-- "module_exit" -/
def moduleExit : CString := ⟨[109, 111, 100, 117, 108, 101, 95, 101, 120, 105, 116], by decide⟩

/-- The argument of both functions. -/
def moduleArg : ℕ := 0xdeaddead

/-- What the calls of the heap in a registration do: `new Object`, those of `load`, and what deletes
the layout of a module that is refused. -/
structure ModuleCalls where
  object : List HeapEffect
  load : LiveLinker.LoadCalls
  release : List HeapEffect

structure ModuleManager where
  linker : LiveLinker
  modules : StaticArray Module 64

namespace ModuleManager

/-- Call the function of a module at an address. -/
def callAt (code : ModuleCode) (l : LiveLinker) (addr : ℕ) :
    Traced ModuleCall Halt LiveLinker := do
  Traced.emit ⟨addr, moduleArg⟩
  let as ← Traced.lift (code ⟨addr, moduleArg⟩ l.linker.space.mm)
  let (m, endAddr) ← Traced.lift (LiveLinker.heapCall l.linker.space l.heapEnd as)
  return ⟨⟨m, l.linker.layouts⟩, endAddr⟩

/-- The module is unloaded again. -/
def refuse (modules : StaticArray Module 64) (release : List HeapEffect) (l : LiveLinker) (i : ℕ) :
    Traced ModuleCall Halt (ModuleManager × Bool) := do
  let l ← Traced.lift (l.unloadLocked i release)
  return (⟨l, modules⟩, false)

/-- The rest of `registerModule`, once the module is linked and its layout is in slot `i`. -/
def enroll (code : ModuleCode) (modules : StaticArray Module 64) (release : List HeapEffect)
    (l : LiveLinker) (i : ℕ) : Traced ModuleCall Halt (ModuleManager × Bool) := do
  let enter ← Traced.lift (l.symbolAddress i moduleEnter)
  let exit ← Traced.lift (l.symbolAddress i moduleExit)
  if enter < 0x1000 then refuse modules release l i
  else if exit ≠ 0 ∧ exit < 0x1000 then refuse modules release l i
  else
    -- `enter` is not null here
    let l ← callAt code l enter
    let (modules, _) ← Traced.lift (modules.emplace ⟨some i, enter, exit⟩)
    return (⟨l, modules⟩, true)

def registerModule (code : ModuleCode) (tab : List KexpEntry) (s : ModuleManager) (ptr : UInt32)
    (calls : ModuleCalls) : Traced ModuleCall Halt (ModuleManager × Bool) := do
  let (m, endAddr, o) ← Traced.lift
    (LiveLinker.create calls.object s.linker.linker.space s.linker.heapEnd ptr)
  match o with
  | none => return (⟨⟨⟨m, s.linker.linker.layouts⟩, endAddr⟩, s.modules⟩, false)
  | some o => do
    let (l, layout) ← Traced.lift
      (LiveLinker.load tab calls.load ⟨⟨m, s.linker.linker.layouts⟩, endAddr⟩ (some o)).result
    match layout with
    | none => return (⟨l, s.modules⟩, false)
    | some i => enroll code s.modules calls.release l i

/-- The first half of the body of the loop of `~ModuleManager`. -/
def callExit (code : ModuleCode) (l : LiveLinker) (M : Module) :
    Traced ModuleCall Halt LiveLinker :=
  if 0x1000 ≤ M.exit then callAt code l M.exit else pure l

/-- The body of the loop of `~ModuleManager`, with what the calls of the heap do that delete the
layout of a slot. -/
def closeModule (code : ModuleCode) (release : ℕ → List HeapEffect) (l : LiveLinker) (M : Module) :
    Traced ModuleCall Halt LiveLinker := do
  let l ← callExit code l M
  match M.layout with
  | none => return l
  | some i => Traced.lift (l.unloadLocked i (release i))

def closeModules (code : ModuleCode) (release : ℕ → List HeapEffect) :
    List Module → LiveLinker → Traced ModuleCall Halt LiveLinker
  | [], l => pure l
  | M :: Ms, l => do
    let l ← closeModule code release l M
    closeModules code release Ms l

/-- `~ModuleManager`. Its loop visits the modules that the iterator of the array gives. -/
def destruct (code : ModuleCode) (release : ℕ → List HeapEffect) (s : ModuleManager) :
    Traced ModuleCall Halt ModuleManager :=
  match s.modules.forLoop 65 s.modules.beginIndex with
  | none => Traced.lift (.error .diverged)
  | some visited => do
    let l ← closeModules code release (visited.filterMap Prod.snd) s.linker
    let modules ← Traced.lift s.modules.clear.result
    return ⟨l, modules⟩

end ModuleManager

/-- The part of `~Kernel` that destroys the module manager, and then the linker. -/
def Kernel.destruct (code : ModuleCode) (release : ℕ → List HeapEffect) (s : ModuleManager) :
    Traced ModuleCall Halt ModuleManager := do
  let s ← s.destruct code release
  let l ← Traced.lift (s.linker.destruct release 65)
  return ⟨l, s.modules⟩

/-! ## Statements -/

namespace ModuleManager

inductive Act where
  | register (ptr : UInt32) (calls : ModuleCalls)
  /-- The heap is called by other code. -/
  | heap (as : List HeapEffect)

def Step (code : ModuleCode) (tab : List KexpEntry) (s : ModuleManager) (a : Act)
    (s' : ModuleManager) : Prop :=
  match a with
  | .register ptr calls => ∃ r, (s.registerModule code tab ptr calls).result = .ok (s', r)
  | .heap as =>
    ∃ m e, LiveLinker.heapCall s.linker.linker.space s.linker.heapEnd as = .ok (m, e) ∧
      s' = ⟨⟨⟨m, s.linker.linker.layouts⟩, e⟩, s.modules⟩

/-- A linker that has just been constructed, and no modules. -/
def Init (s : ModuleManager) : Prop := LiveLinker.Init s.linker ∧ s.modules = .empty

/-- The module `M`, whose layout `L` has been linked in `l`, has the addresses that `find_symbol`
gives, and has gone into the lowest free slot, which is the slot of its layout. -/
structure Entry (s s' : ModuleManager) (l : LiveLinker) (i : ℕ) (L : Linker.Layout) (M : Module) :
    Prop where
  enter : LiveLinker.findSymbol L l.linker.space.mm.vmm moduleEnter = .ok M.enter
  exit : LiveLinker.findSymbol L l.linker.space.mm.vmm moduleExit = .ok M.exit
  layout : M.layout = some i
  free : s.modules.findFreeSlot = some i ∧ s.linker.linker.layouts.findFreeSlot = some i
  modules : s'.modules.ptr = Function.update s.modules.ptr i (some M)
  layouts : s'.linker.linker.layouts.ptr =
    Function.update s.linker.linker.layouts.ptr i (some L)

/-- A registration that succeeds: the file is an object, which is linked; the module is entered, and
its `module_enter` is called once. -/
def Registered (tab : List KexpEntry) (s s' : ModuleManager) (ptr : UInt32) (calls : ModuleCalls)
    (trace : List ModuleCall) : Prop :=
  ∃ m e o l i L M,
    LiveLinker.create calls.object s.linker.linker.space s.linker.heapEnd ptr =
      .ok (m, e, some o) ∧
    (LiveLinker.load tab calls.load ⟨⟨m, s.linker.linker.layouts⟩, e⟩ (some o)).result =
      .ok (l, some i) ∧
    Entry s s' l i L M ∧ trace = [⟨M.enter, moduleArg⟩]

/-- The code of a module stops the kernel, by itself or in what it does to memory. -/
def CodeStops (code : ModuleCode) (err : Halt) : Prop :=
  ∃ call mm, code call mm = .error err ∨
    ∃ as m e, code call mm = .ok as ∧ LiveLinker.heapCall m e as = .error err

/-- What stops a registration. -/
inductive Stops (code : ModuleCode) (tab : List KexpEntry) (s : ModuleManager) (ptr : UInt32)
    (calls : ModuleCalls) (err : Halt) : Prop where
  | create (h : LiveLinker.create calls.object s.linker.linker.space s.linker.heapEnd ptr =
      .error err)
  | load {m : ModuleSpace} {e : ℕ} {o : Object} (h : (LiveLinker.load tab calls.load
      ⟨⟨m, s.linker.linker.layouts⟩, e⟩ (some o)).result = .error err)
  | symbol {L : Linker.Layout} {vmm : Vmm} {name : CString}
      (h : LiveLinker.findSymbol L vmm name = .error err)
  | release {m : ModuleSpace} {e : ℕ} (h : LiveLinker.heapCall m e calls.release = .error err)
  | code (h : CodeStops code err)

/-- What holds in every reachable state. -/
structure Sound (code : ModuleCode) (tab : List KexpEntry) (s₀ s : ModuleManager) : Prop where
  owner : ∀ k, (s.modules.ptr k).map Module.layout =
    (s.linker.linker.layouts.ptr k).map fun _ => some k
  entries : ∀ k M, s.modules.ptr k = some M → 0x1000 ≤ M.enter ∧ (M.exit = 0 ∨ 0x1000 ≤ M.exit)
  accounts : LiveLinker.Accounts s₀.linker s.linker
  rejected : ∀ ptr calls s', (s.registerModule code tab ptr calls).result = .ok (s', false) →
    s'.modules = s.modules ∧ LiveLinker.Restored s.linker s'.linker ∧
      (s.registerModule code tab ptr calls).trace = []
  accepted : ∀ ptr calls s', (s.registerModule code tab ptr calls).result = .ok (s', true) →
    Registered tab s s' ptr calls (s.registerModule code tab ptr calls).trace
  stops : ∀ ptr calls err, (s.registerModule code tab ptr calls).result = .error err →
    Stops code tab s ptr calls err

/-! ## Registrations -/

section

variable {code : ModuleCode} {tab : List KexpEntry} {res ext own : ℕ → Prop}
  {s₀ l l₁ l' : LiveLinker} {s s' : ModuleManager} {ptr : UInt32} {calls : ModuleCalls}
  {m m' : ModuleSpace} {e e' i : ℕ} {L : Linker.Layout}

/-- The state `s` of a run over a linker that started as `s₀`. -/
structure Inv (res ext own : ℕ → Prop) (s₀ : LiveLinker) (s : ModuleManager) : Prop where
  linker : LiveLinker.Inv res ext own s₀ s.linker
  layouts : s.linker.linker.layouts.Counted
  modules : s.modules.Counted
  owner : ∀ k, (s.modules.ptr k).map Module.layout =
    (s.linker.linker.layouts.ptr k).map fun _ => some k
  entries : ∀ k M, s.modules.ptr k = some M → 0x1000 ≤ M.enter ∧ (M.exit = 0 ∨ 0x1000 ≤ M.exit)

/-- `Object::create` moves the heap, if it gets to `new Object`. -/
theorem create_spec {rs : List PageRun} {as : List HeapEffect} {o : Option Object}
    (h : m.Inv res ext (withHeap own e) rs) (he : HeapEndOk e)
    (hout : ∀ v, own v → ¬ Mm.HeapWindow v)
    (hr : LiveLinker.create as m e ptr = .ok (m', e', o)) :
    LiveLinker.Moved res ext own rs m m' e' := by
  unfold LiveLinker.create at hr
  rw [K.bind_eq_ok] at hr
  obtain ⟨magic, _, hr⟩ := hr
  cases magic with
  | false => cases hr; exact .refl h he
  | true =>
    rw [Bool.not_true, if_neg Bool.false_ne_true, K.bind_eq_ok] at hr
    obtain ⟨machine, _, hr⟩ := hr
    by_cases hm : machine = 3
    · rw [if_neg (not_not.2 hm), K.bind_eq_ok] at hr
      obtain ⟨⟨m₁, e₁⟩, hc, hr⟩ := hr
      rw [K.bind_eq_ok] at hr
      obtain ⟨_, _, hr⟩ := hr
      cases hr
      exact LiveLinker.heapCall_spec h he hout hc
    · rw [if_pos hm] at hr
      cases hr
      exact .refl h he

/-- The heap has moved before a load that fails. -/
theorem failed_of_moved {t : StaticArray Linker.Layout 64}
    (hmove : LiveLinker.Moved res ext own (Linker.runs t) m m' e')
    (hf : LiveLinker.Failed res ext own ⟨⟨m', t⟩, e'⟩ l') :
    LiveLinker.Failed res ext own ⟨⟨m, t⟩, e⟩ l' := by
  refine ⟨hf.slots, hf.space, hf.heap, hmove.tables.trans hf.tables, fun v hv hw => ?_⟩
  rcases hf.mapped v hv hw with h | h
  · exact Or.inl (h.trans (hmove.mapped v hv hw))
  · exact Or.inr h

/-- A load that is undone at once is a load that has failed. -/
theorem failed_of_unload {release : List HeapEffect} (hout : ∀ v, own v → ¬ Mm.HeapWindow v)
    (hl : LiveLinker.Loaded res ext own l l₁ i L) (hu : l₁.unloadLocked i release = .ok l') :
    LiveLinker.Failed res ext own l l' := by
  obtain ⟨hlay, hinv, he, htab, hkeep, hgone⟩ :=
    LiveLinker.unloadLocked_spec hl.space hl.heap hout hl.ok hl.some hu
  refine ⟨fun j => ?_, hinv, he, hl.tables.trans htab, fun v hv hw => ?_⟩
  · rw [hlay, StaticArray.ptr_erase]
    split_ifs with hj
    · rw [hj, hl.none]
    · exact hl.rest j hj
  · by_cases hin : Linker.In L.runs v
    · exact Or.inr ⟨hgone v hin, hl.fresh v hin⟩
    · exact Or.inl ((hkeep v hv hw hin).trans (hl.mapped v hv hw hin))

/-- **Code of modules runs.** -/
theorem callAt_finishes (code : ModuleCode) (h : LiveLinker.Inv res ext own s₀ l)
    (hout : ∀ v, own v → ¬ Mm.HeapWindow v) (addr : ℕ) :
    (callAt code l addr).Finishes [⟨addr, moduleArg⟩]
      (fun l' => LiveLinker.Inv res ext own s₀ l' ∧ l'.linker.layouts = l.linker.layouts)
      (CodeStops code) := by
  unfold callAt
  refine (Traced.finishes_emit _).bind fun _ _ => ?_
  refine (Traced.finishes_lift (P := fun as => code ⟨addr, moduleArg⟩ l.linker.space.mm = .ok as)
    (fun _ h => h) fun err herr => ⟨_, _, Or.inl herr⟩).bind fun as has => ?_
  refine (Traced.finishes_lift
    (P := fun p => LiveLinker.heapCall l.linker.space l.heapEnd as = .ok p)
    (fun _ h => h) fun err herr => ⟨_, _, Or.inr ⟨as, _, _, has, herr⟩⟩).bind fun p hp => ?_
  exact Traced.finishes_pure ⟨h.heapCall hout hp, rfl⟩

/-- Tables that agree slot by slot have the same lowest free slot. -/
theorem findFreeSlot_congr {α β : Type} {t : StaticArray α 64} {u : StaticArray β 64}
    (h : ∀ k, (t.ptr k).isSome = (u.ptr k).isSome) : t.findFreeSlot = u.findFreeSlot := by
  have hocc : t.occupied = u.occupied := funext h
  unfold StaticArray.findFreeSlot
  rw [hocc]

theorem Inv.findFreeSlot (h : Inv res ext own s₀ s) :
    s.modules.findFreeSlot = s.linker.linker.layouts.findFreeSlot := by
  refine findFreeSlot_congr fun k => ?_
  have hk := congrArg Option.isSome (h.owner k)
  rwa [Option.isSome_map, Option.isSome_map] at hk

/-- The layout in slot `i` has just been linked, after the heap has moved. -/
structure Linked (res ext own : ℕ → Prop) (s₀ : LiveLinker) (s : ModuleManager) (l : LiveLinker)
    (i : ℕ) (L : Linker.Layout) : Prop where
  loaded : ∃ m e, LiveLinker.Moved res ext own (Linker.runs s.linker.linker.layouts)
    s.linker.linker.space m e ∧
    LiveLinker.Loaded res ext own ⟨⟨m, s.linker.linker.layouts⟩, e⟩ l i L
  inv : LiveLinker.Inv res ext own s₀ l
  free : s.linker.linker.layouts.findFreeSlot = some i
  counted : l.linker.layouts.Counted

theorem Linked.some (hl : Linked res ext own s₀ s l i L) : l.linker.layouts.ptr i = some L := by
  obtain ⟨_, _, _, h⟩ := hl.loaded
  exact h.some

theorem Linked.rest (hl : Linked res ext own s₀ s l i L) {j : ℕ} (hj : j ≠ i) :
    l.linker.layouts.ptr j = s.linker.linker.layouts.ptr j := by
  obtain ⟨_, _, _, h⟩ := hl.loaded
  exact h.rest j hj

/-- The module is refused. -/
structure Refused (res ext own : ℕ → Prop) (s s' : ModuleManager) : Prop where
  modules : s'.modules = s.modules
  failed : LiveLinker.Failed res ext own s.linker s'.linker
  layouts : s.linker.linker.layouts.Counted → s'.linker.linker.layouts.Counted

/-- Both exits of `registerModule` that unload the module. -/
theorem refuse_finishes (release : List HeapEffect) (hl : Linked res ext own s₀ s l i L)
    (hout : ∀ v, own v → ¬ Mm.HeapWindow v) :
    (refuse s.modules release l i).Finishes []
      (fun q => q.2 = false ∧ Refused res ext own s q.1)
      fun err => ∃ m e, LiveLinker.heapCall m e release = .error err := by
  unfold refuse
  refine (Traced.finishes_lift (P := fun l' => l.unloadLocked i release = .ok l') (fun _ h => h)
    fun err herr => ?_).bind fun l' hu => Traced.finishes_pure ⟨rfl, rfl, ?_, fun _ => ?_⟩
  · obtain ⟨m, hm⟩ := hl.inv.unloadLocked_error hl.some herr
    exact ⟨m, _, hm⟩
  · obtain ⟨m, e, hmove, hloaded⟩ := hl.loaded
    exact failed_of_moved hmove (failed_of_unload hout hloaded hu)
  · exact LiveLinker.counted_unload hl.counted hu

/-- The module goes into the slot of its layout. -/
theorem Inv.enter (h : Inv res ext own s₀ s) (hl : Linked res ext own s₀ s l i L)
    (hl₁ : LiveLinker.Inv res ext own s₀ l₁) (hsame : l₁.linker.layouts = l.linker.layouts)
    {modules : StaticArray Module 64} {k : ℕ} {M : Module} (hM : M.layout = some i)
    (henter : LiveLinker.findSymbol L l.linker.space.mm.vmm moduleEnter = .ok M.enter)
    (hexit : LiveLinker.findSymbol L l.linker.space.mm.vmm moduleExit = .ok M.exit)
    (hcallable : 0x1000 ≤ M.enter ∧ (M.exit = 0 ∨ 0x1000 ≤ M.exit))
    (he : s.modules.emplace M = .ok (modules, k)) :
    Inv res ext own s₀ ⟨l₁, modules⟩ ∧ Entry s ⟨l₁, modules⟩ l i L M := by
  have hslot := StaticArray.findFreeSlot_of_emplace he
  obtain rfl : k = i := by
    rw [h.findFreeSlot, hl.free] at hslot
    exact (Option.some.inj hslot).symm
  obtain ⟨_, _, hsome, hrest, _⟩ := StaticArray.emplace_eq_ok he
  have hmodules : modules.ptr = Function.update s.modules.ptr k (some M) := by
    funext j
    by_cases hj : j = k
    · rw [hj, hsome, Function.update_self]
    · rw [hrest j hj, Function.update_of_ne hj]
  have hlayouts : l₁.linker.layouts.ptr =
      Function.update s.linker.linker.layouts.ptr k (some L) := by
    funext j
    rw [hsame]
    by_cases hj : j = k
    · rw [hj, hl.some, Function.update_self]
    · rw [hl.rest hj, Function.update_of_ne hj]
  refine ⟨⟨hl₁, by rw [hsame]; exact hl.counted, h.modules.emplace he, fun j => ?_,
    fun j M' hM' => ?_⟩, henter, hexit, hM, ⟨hslot, hl.free⟩, hmodules, hlayouts⟩
  · show (modules.ptr j).map Module.layout = (l₁.linker.layouts.ptr j).map fun _ => some j
    rw [hmodules, hlayouts]
    by_cases hj : j = k
    · rw [hj, Function.update_self, Function.update_self, Option.map_some, Option.map_some, hM]
    · rw [Function.update_of_ne hj, Function.update_of_ne hj]
      exact h.owner j
  · have hM'' : modules.ptr j = some M' := hM'
    rw [hmodules] at hM''
    by_cases hj : j = k
    · rw [hj, Function.update_self] at hM''
      cases hM''
      exact hcallable
    · rw [Function.update_of_ne hj] at hM''
      exact h.entries j M' hM''

theorem symbolAddress_eq (hL : l.linker.layouts.ptr i = some L) (name : CString) :
    l.symbolAddress i name = LiveLinker.findSymbol L l.linker.space.mm.vmm name := by
  unfold LiveLinker.symbolAddress
  rw [hL]

/-- The rest of a registration: the module is refused, or entered. -/
theorem enroll_spec {release : List HeapEffect} {r : Bool} (h : Inv res ext own s₀ s)
    (hout : ∀ v, own v → ¬ Mm.HeapWindow v) (hl : Linked res ext own s₀ s l i L)
    (hr : (enroll code s.modules release l i).result = .ok (s', r)) :
    (r = false ∧ (enroll code s.modules release l i).trace = [] ∧ Refused res ext own s s') ∨
      (r = true ∧ Inv res ext own s₀ s' ∧ ∃ M, Entry s s' l i L M ∧
        (enroll code s.modules release l i).trace = [⟨M.enter, moduleArg⟩]) := by
  have hrefuse := refuse_finishes release hl hout
  unfold enroll at hr ⊢
  rw [symbolAddress_eq hl.some, symbolAddress_eq hl.some] at hr ⊢
  rw [Traced.result_bind] at hr
  obtain ⟨enter, henter, hr⟩ := hr
  rw [Traced.trace_bind henter, Traced.trace_lift, List.nil_append]
  rw [Traced.result_bind] at hr
  obtain ⟨exit, hexit, hr⟩ := hr
  rw [Traced.trace_bind hexit, Traced.trace_lift, List.nil_append]
  by_cases h1 : enter < 0x1000
  · rw [if_pos h1] at hr ⊢
    obtain ⟨htrace, hq⟩ := hrefuse.performs.returns _ hr
    exact Or.inl ⟨hq.1, htrace, hq.2⟩
  rw [if_neg h1] at hr ⊢
  by_cases h2 : exit ≠ 0 ∧ exit < 0x1000
  · rw [if_pos h2] at hr ⊢
    obtain ⟨htrace, hq⟩ := hrefuse.performs.returns _ hr
    exact Or.inl ⟨hq.1, htrace, hq.2⟩
  rw [if_neg h2] at hr ⊢
  rw [Traced.result_bind] at hr
  obtain ⟨l₁, hcall, hr⟩ := hr
  rw [Traced.result_bind] at hr
  obtain ⟨⟨modules, k⟩, he, hr⟩ := hr
  cases hr
  obtain ⟨htrace, hl₁, hsame⟩ :=
    (callAt_finishes code hl.inv hout enter).performs.returns _ hcall
  rw [Traced.trace_bind hcall, Traced.trace_bind he, htrace]
  have hcallable : 0x1000 ≤ enter ∧ (exit = 0 ∨ 0x1000 ≤ exit) := ⟨by omega, by omega⟩
  obtain ⟨hinv, hentry⟩ := h.enter hl hl₁ hsame (M := ⟨some i, enter, exit⟩) rfl henter hexit
    hcallable he
  exact Or.inr ⟨rfl, hinv, _, hentry, rfl⟩

/-- The rest of a registration stops in a read of a name, in a call of the heap, or in the code of
the module. -/
theorem enroll_stops (h : Inv res ext own s₀ s) (hout : ∀ v, own v → ¬ Mm.HeapWindow v)
    (hl : Linked res ext own s₀ s l i L) {err : Halt}
    (hr : (enroll code s.modules calls.release l i).result = .error err) :
    Stops code tab s ptr calls err := by
  have hrefuse := refuse_finishes calls.release hl hout
  have hstop : (refuse s.modules calls.release l i).result = .error err →
      Stops code tab s ptr calls err := by
    intro hr
    obtain ⟨m, e, hm⟩ := hrefuse.stops _ hr
    exact .release hm
  unfold enroll at hr
  rw [symbolAddress_eq hl.some, symbolAddress_eq hl.some, Traced.result_bind_error] at hr
  rcases hr with hr | ⟨enter, _, hr⟩
  · exact .symbol hr
  rw [Traced.result_bind_error] at hr
  rcases hr with hr | ⟨exit, _, hr⟩
  · exact .symbol hr
  by_cases h1 : enter < 0x1000
  · rw [if_pos h1] at hr
    exact hstop hr
  rw [if_neg h1] at hr
  by_cases h2 : exit ≠ 0 ∧ exit < 0x1000
  · rw [if_pos h2] at hr
    exact hstop hr
  rw [if_neg h2, Traced.result_bind_error] at hr
  rcases hr with hr | ⟨l₁, _, hr⟩
  · exact .code ((callAt_finishes code hl.inv hout enter).stops _ hr)
  -- the slot of the layout is free for the module
  · have hfree : s.modules.findFreeSlot = some i := h.findFreeSlot.trans hl.free
    unfold StaticArray.emplace at hr
    rw [hfree] at hr
    cases hr

/-! ## Runs -/

/-- What a file leads to: it is none, or cannot be linked, or its module is linked. -/
theorem linked_of_load (h : Inv res ext own s₀ s) (hout : ∀ v, own v → ¬ Mm.HeapWindow v)
    {o : Option Object} {j : Option ℕ}
    (hc : LiveLinker.create calls.object s.linker.linker.space s.linker.heapEnd ptr =
      .ok (m, e, o))
    (hload : (LiveLinker.load tab calls.load ⟨⟨m, s.linker.linker.layouts⟩, e⟩ o).result =
      .ok (l, j)) :
    (j = none ∧ Refused res ext own s ⟨l, s.modules⟩) ∨
      ∃ i L, j = some i ∧ Linked res ext own s₀ s l i L := by
  have hmove := create_spec h.linker.space h.linker.heap hout hc
  have hinv := h.linker.moved hmove
  have hslotted := LiveLinker.slotted_load hload
  rcases LiveLinker.load_spec hinv.space hinv.heap hout hload with ⟨rfl, hf⟩ | ⟨i, L, rfl, hl⟩
  · exact Or.inl ⟨rfl, rfl, failed_of_moved hmove hf, hslotted.counted⟩
  · exact Or.inr ⟨i, L, rfl, ⟨m, e, hmove, hl⟩, hinv.load hout hload, hslotted.lowest i rfl,
      hslotted.counted h.layouts⟩

/-- **A registration** refuses the module, or enters it. -/
theorem Inv.registerModule (h : Inv res ext own s₀ s) (hout : ∀ v, own v → ¬ Mm.HeapWindow v)
    {r : Bool} (hr : (s.registerModule code tab ptr calls).result = .ok (s', r)) :
    (r = false ∧ (s.registerModule code tab ptr calls).trace = [] ∧ Refused res ext own s s') ∨
      (r = true ∧ Inv res ext own s₀ s' ∧
        Registered tab s s' ptr calls (s.registerModule code tab ptr calls).trace) := by
  unfold ModuleManager.registerModule at hr ⊢
  rw [Traced.result_bind] at hr
  obtain ⟨⟨m, e, o⟩, hc, hr⟩ := hr
  rw [Traced.trace_bind hc, Traced.trace_lift, List.nil_append]
  cases o with
  | none =>
    cases hr
    have hload : (LiveLinker.load tab calls.load ⟨⟨m, s.linker.linker.layouts⟩, e⟩ none).result =
        .ok (⟨⟨m, s.linker.linker.layouts⟩, e⟩, none) := rfl
    rcases linked_of_load h hout hc hload with ⟨_, hrefused⟩ | ⟨_, _, hj, _⟩
    · exact Or.inl ⟨rfl, rfl, hrefused⟩
    · cases hj
  | some o =>
    dsimp only at hr ⊢
    rw [Traced.result_bind] at hr
    obtain ⟨⟨l, j⟩, hload, hr⟩ := hr
    rw [Traced.trace_bind hload, Traced.trace_lift, List.nil_append]
    rcases linked_of_load h hout hc hload with ⟨rfl, hrefused⟩ | ⟨i, L, rfl, hl⟩
    · cases hr
      exact Or.inl ⟨rfl, rfl, hrefused⟩
    · rcases enroll_spec h hout hl hr with hrefused | ⟨rfl, hinv, M, hentry, htrace⟩
      · exact Or.inl hrefused
      · exact Or.inr ⟨rfl, hinv, m, e, o, l, i, L, M, hc, hload, hentry, htrace⟩

/-- What stops a registration. -/
theorem Inv.registerModule_stops (h : Inv res ext own s₀ s)
    (hout : ∀ v, own v → ¬ Mm.HeapWindow v) {err : Halt}
    (hr : (s.registerModule code tab ptr calls).result = .error err) :
    Stops code tab s ptr calls err := by
  unfold ModuleManager.registerModule at hr
  rw [Traced.result_bind_error] at hr
  rcases hr with hr | ⟨⟨m, e, o⟩, hc, hr⟩
  · exact .create hr
  cases o with
  | none => cases hr
  | some o =>
    dsimp only at hr
    rw [Traced.result_bind_error] at hr
    rcases hr with hr | ⟨⟨l, j⟩, hload, hr⟩
    · exact .load hr
    rcases linked_of_load h hout hc hload with ⟨rfl, _⟩ | ⟨i, L, rfl, hl⟩
    · cases hr
    · exact enroll_stops h hout hl hr

theorem Refused.inv (h : Inv res ext own s₀ s) (hr : Refused res ext own s s') :
    Inv res ext own s₀ s' := by
  refine ⟨h.linker.failed hr.failed, hr.layouts h.layouts, by rw [hr.modules]; exact h.modules,
    fun k => ?_, by rw [hr.modules]; exact h.entries⟩
  rw [hr.modules, h.owner k, hr.failed.slots k]

theorem inv_step (hout : ∀ v, own v → ¬ Mm.HeapWindow v) {a : Act} (h : Inv res ext own s₀ s)
    (hs : Step code tab s a s') : Inv res ext own s₀ s' := by
  cases a with
  | register ptr calls =>
    obtain ⟨r, hr⟩ := hs
    rcases h.registerModule hout hr with ⟨_, _, hrefused⟩ | ⟨_, hinv, _⟩
    · exact hrefused.inv h
    · exact hinv
  | heap as =>
    obtain ⟨m, e, hr, rfl⟩ := hs
    exact ⟨h.linker.heapCall hout hr, h.layouts, h.modules, h.owner, h.entries⟩

theorem inv_run (hout : ∀ v, own v → ¬ Mm.HeapWindow v) {as : List Act}
    (h : Inv res ext own s₀ s) (hrun : Run (Step code tab) s as s') : Inv res ext own s₀ s' :=
  Run.invariant (I := Inv res ext own s₀) (C := fun _ _ => True)
    (fun _ _ _ hI _ hs => inv_step hout hI hs) hrun (along_true _ _) h

theorem inv_init (h : Init s) : ∃ res ext own, (∀ v, own v → ¬ Mm.HeapWindow v) ∧
    Linker.runs s.linker.linker.layouts = [] ∧ Inv res ext own s.linker s := by
  obtain ⟨hlinker, hmodules⟩ := h
  obtain ⟨res, ext, own, hout, hempty, hI⟩ := LiveLinker.inv_init hlinker
  have hslots : ∀ i, s.linker.linker.layouts.ptr i = none := by
    obtain ⟨_, _, _, _, _, he, _⟩ := hlinker
    rw [he]
    exact StaticArray.ptr_empty
  refine ⟨res, ext, own, hout, hempty, hI, hlinker.counted, ?_, fun k => ?_, fun k M hM => ?_⟩
  · rw [hmodules]
    exact StaticArray.counted_empty
  · rw [hmodules, StaticArray.ptr_empty, hslots k]
    rfl
  · rw [hmodules, StaticArray.ptr_empty] at hM
    cases hM

theorem Inv.sound (hout : ∀ v, own v → ¬ Mm.HeapWindow v) {m₀ : ModuleManager}
    (h₀ : Inv res ext own m₀.linker m₀)
    (hempty : Linker.runs m₀.linker.linker.layouts = []) (h : Inv res ext own m₀.linker s) :
    Sound code tab m₀ s := by
  refine ⟨h.owner, h.entries, h.linker.accounts hout h₀.linker hempty, fun ptr calls s' hr => ?_,
    fun ptr calls s' hr => ?_, fun ptr calls err hr => h.registerModule_stops hout hr⟩
  · rcases h.registerModule hout hr with ⟨_, htrace, hrefused⟩ | ⟨hf, _⟩
    · exact ⟨hrefused.modules, h.linker.restored hout hrefused.failed, htrace⟩
    · cases hf
  · rcases h.registerModule hout hr with ⟨hf, _⟩ | ⟨_, _, hregistered⟩
    · cases hf
    · exact hregistered

/-! ## The destructor -/

/-- The call of `module_exit` that the destructor makes for a module, if any. -/
def exitCall (M : Module) : Option ModuleCall :=
  if 0x1000 ≤ M.exit then some ⟨M.exit, moduleArg⟩ else none

/-- What stops the destructor. -/
def CloseStops (code : ModuleCode) (release : ℕ → List HeapEffect) (err : Halt) : Prop :=
  CodeStops code err ∨ LiveLinker.HeapStops release err

variable {release : ℕ → List HeapEffect}

theorem callExit_finishes (h : LiveLinker.Inv res ext own s₀ l)
    (hout : ∀ v, own v → ¬ Mm.HeapWindow v) (M : Module) :
    (callExit code l M).Finishes (exitCall M).toList
      (fun l' => LiveLinker.Inv res ext own s₀ l' ∧ l'.linker.layouts = l.linker.layouts)
      (CloseStops code release) := by
  unfold callExit exitCall
  by_cases hexit : 0x1000 ≤ M.exit
  · rw [if_pos hexit, if_pos hexit]
    have hcall := callAt_finishes code h hout M.exit
    exact ⟨hcall.performs, fun err herr => Or.inl (hcall.stops err herr)⟩
  · rw [if_neg hexit, if_neg hexit]
    exact Traced.finishes_pure ⟨h, rfl⟩

/-- A module is closed: its `module_exit` is called, and its layout is gone. -/
theorem closeModule_finishes (h : LiveLinker.Inv res ext own s₀ l)
    (hout : ∀ v, own v → ¬ Mm.HeapWindow v) (hc : l.linker.layouts.Counted) {M : Module}
    (hM : M.layout = some i) (hL : l.linker.layouts.ptr i = some L) :
    (closeModule code release l M).Finishes (exitCall M).toList
      (fun l' => LiveLinker.Inv res ext own s₀ l' ∧ l'.linker.layouts.Counted ∧
        l'.linker.layouts.ptr i = none ∧
        ∀ j, j ≠ i → l'.linker.layouts.ptr j = l.linker.layouts.ptr j)
      (CloseStops code release) := by
  unfold closeModule
  rw [← List.append_nil (exitCall M).toList]
  refine (callExit_finishes h hout M).bind fun l₁ ⟨hI₁, hsame⟩ => ?_
  rw [hM]
  have hL₁ : l₁.linker.layouts.ptr i = some L := by rw [hsame, hL]
  refine Traced.finishes_lift (fun l' hu => ?_) fun err herr => ?_
  · obtain ⟨hI', hgone, hrest, _⟩ := hI₁.unload hout hL₁ hu
    exact ⟨hI', LiveLinker.counted_unload (by rw [hsame]; exact hc) hu, hgone,
      fun j hj => by rw [hrest j hj, hsame]⟩
  · obtain ⟨m, hm⟩ := hI₁.unloadLocked_error hL₁ herr
    exact Or.inr ⟨i, m, _, hm⟩

/-- The loop of the destructor over modules with layouts of their own. -/
theorem closeModules_finishes (code : ModuleCode) (release : ℕ → List HeapEffect)
    (hout : ∀ v, own v → ¬ Mm.HeapWindow v) :
    ∀ {Ms : List Module} {l : LiveLinker}, LiveLinker.Inv res ext own s₀ l →
      l.linker.layouts.Counted → Ms.Pairwise (fun M M' => M.layout ≠ M'.layout) →
      (∀ M ∈ Ms, ∃ i L, M.layout = some i ∧ l.linker.layouts.ptr i = some L) →
      (∀ i L, l.linker.layouts.ptr i = some L → ∃ M ∈ Ms, M.layout = some i) →
      (closeModules code release Ms l).Finishes (Ms.filterMap exitCall)
        (fun l' => LiveLinker.Inv res ext own s₀ l' ∧ l'.linker.layouts.Counted ∧
          ∀ i, l'.linker.layouts.ptr i = none)
        (CloseStops code release) := by
  intro Ms
  induction Ms with
  | nil =>
    intro l h hc _ _ honto
    refine Traced.finishes_pure ⟨h, hc, fun i => ?_⟩
    cases hi : l.linker.layouts.ptr i with
    | none => rfl
    | some L =>
      obtain ⟨M, hM, _⟩ := honto i L hi
      exact absurd hM List.not_mem_nil
  | cons M Ms ih =>
    intro l h hc hdistinct hlive honto
    obtain ⟨hne, hdistinct⟩ := List.pairwise_cons.1 hdistinct
    obtain ⟨i, L, hM, hL⟩ := hlive M List.mem_cons_self
    have hcalls : (M :: Ms).filterMap exitCall =
        (exitCall M).toList ++ Ms.filterMap exitCall := by
      rw [List.filterMap_cons]
      cases exitCall M <;> rfl
    rw [closeModules, hcalls]
    refine (closeModule_finishes h hout hc hM hL).bind fun l₁ ⟨hI₁, hc₁, hgone, hrest⟩ => ?_
    refine ih hI₁ hc₁ hdistinct (fun M' hM' => ?_) fun j L' hL' => ?_
    · obtain ⟨j, L', hj, hL'⟩ := hlive M' (List.mem_cons_of_mem _ hM')
      refine ⟨j, L', hj, ?_⟩
      rw [hrest j, hL']
      rintro rfl
      exact hne M' hM' (hM.trans hj.symm)
    · have hji : j ≠ i := by
        rintro rfl
        rw [hgone] at hL'
        cases hL'
      rw [hrest j hji] at hL'
      obtain ⟨M', hM', hj⟩ := honto j L' hL'
      rcases List.mem_cons.1 hM' with rfl | hM'
      · exact absurd (Option.some.inj (hM.symm.trans hj)).symm hji
      · exact ⟨M', hM', hj⟩

theorem filterMap_visited {α : Type} (t : StaticArray α 64) :
    (t.occupiedSlots.map fun i => (i, t.ptr i)).filterMap Prod.snd = t.items := by
  unfold StaticArray.occupiedSlots StaticArray.items
  rw [List.filterMap_map, List.filterMap_filter]
  refine List.filterMap_congr fun i _ => ?_
  unfold StaticArray.occupied
  cases hi : t.ptr i <;> simp [hi]

theorem mem_items {M : Module} : M ∈ s.modules.items ↔ ∃ k, s.modules.ptr k = some M := by
  unfold StaticArray.items
  rw [List.mem_filterMap]
  exact ⟨fun ⟨k, _, hk⟩ => ⟨k, hk⟩,
    fun ⟨k, hk⟩ => ⟨k, List.mem_range.2 (StaticArray.ptr_lt hk), hk⟩⟩

/-- A module has the layout of its slot. -/
theorem Inv.layout_of_module (h : Inv res ext own s₀ s) {k : ℕ} {M : Module}
    (hM : s.modules.ptr k = some M) :
    M.layout = some k ∧ ∃ L, s.linker.linker.layouts.ptr k = some L := by
  have hk := h.owner k
  rw [hM, Option.map_some, eq_comm, Option.map_eq_some_iff] at hk
  obtain ⟨L, hL, hk⟩ := hk
  exact ⟨hk.symm, L, hL⟩

theorem Inv.module_of_layout (h : Inv res ext own s₀ s) {k : ℕ}
    (hL : s.linker.linker.layouts.ptr k = some L) :
    ∃ M, s.modules.ptr k = some M ∧ M.layout = some k := by
  have hk := h.owner k
  rw [hL, Option.map_some, Option.map_eq_some_iff] at hk
  exact hk

/-- **The destructor of the manager.** -/
theorem Inv.destruct (h : Inv res ext own s₀ s) (hout : ∀ v, own v → ¬ Mm.HeapWindow v) :
    (s.destruct code release).Finishes (s.modules.items.filterMap exitCall)
      (fun s' => LiveLinker.Inv res ext own s₀ s'.linker ∧ s'.linker.linker.layouts.Counted ∧
        (∀ i, s'.linker.linker.layouts.ptr i = none) ∧ ∀ k, s'.modules.ptr k = none)
      (CloseStops code release) := by
  have hdistinct : s.modules.items.Pairwise fun M M' => M.layout ≠ M'.layout := by
    unfold StaticArray.items
    rw [List.pairwise_filterMap]
    refine List.nodup_range.imp fun {i j} hij M hM M' hM' he => hij ?_
    rw [(h.layout_of_module hM).1, (h.layout_of_module hM').1] at he
    exact Option.some.inj he
  have hclose := closeModules_finishes code release hout h.linker h.layouts
    hdistinct
    (fun M hM => by
      obtain ⟨k, hk⟩ := mem_items.1 hM
      obtain ⟨hlayout, L, hL⟩ := h.layout_of_module hk
      exact ⟨k, L, hlayout, hL⟩)
    (fun i L hL => by
      obtain ⟨M, hM, hlayout⟩ := h.module_of_layout hL
      exact ⟨M, mem_items.2 ⟨i, hM⟩, hlayout⟩)
  obtain ⟨modules, hclear, _, hempty, _⟩ := s.modules.clear_spec
  unfold ModuleManager.destruct
  rw [s.modules.forLoop_begin (by norm_num)]
  dsimp only
  rw [filterMap_visited, ← List.append_nil (s.modules.items.filterMap exitCall)]
  refine hclose.bind fun l' ⟨hI, hc, hnone⟩ => ?_
  rw [hclear]
  exact Traced.finishes_pure ⟨hI, hc, hnone, hempty⟩

end

def quiet : ModuleCalls := ⟨[], LiveLinker.quietCalls, []⟩

end ModuleManager

end Ospp
