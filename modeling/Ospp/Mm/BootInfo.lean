import Ospp.Lib.Mem
import Ospp.Mm.PmmAccount

/-!
# The boot loader's information

`pmm::init` does not get a list of memory map entries: it gets the address of `multiboot_info_t`,
follows `mmap_addr`, and moves on by the `size` in front of each entry until it is past the map;
the modules are found the same way, 16 bytes each. `initAt` is `pmm::init` on the bytes.
`boot_init` ties it to `Pmm.init`: on a map and modules as the boot loader writes them, with any
padding behind an entry, the loops end and see exactly those.
-/

namespace Mem

/-- The 64-bit value at an address. -/
def read64 (m : Mem) (a : ℕ) : ℕ := m.read32 a + 4294967296 * m.read32 (a + 4)

theorem leBytes_eight (v : ℕ) : leBytes 8 v = leBytes 4 v ++ leBytes 4 (v / 4294967296) := by
  have hhigh : ∀ k, byteOf (v / 4294967296) k = byteOf v (4 + k) := fun k => by
    unfold byteOf
    rw [Nat.div_div_eq_div_mul, pow_add]
    rfl
  unfold leBytes
  rw [show List.range 8 = List.range 4 ++ (List.range 4).map (4 + ·) by decide, List.map_append,
    List.map_map]
  exact congrArg _ (List.map_congr_left fun k _ => (hhigh k).symm)

theorem Holds.read64 {m : Mem} {a v : ℕ} (h : m.Holds a (leBytes 8 v))
    (hv : v < 18446744073709551616) : m.read64 a = v := by
  unfold Mem.read64
  have hhigh := h
  rw [leBytes_eight, holds_append, length_leBytes] at hhigh
  rw [h.read32 (by norm_num), hhigh.2.read32 (by norm_num)]
  omega

end Mem

namespace Ospp

namespace BootInfo

variable (m : Mem) (info : ℕ)

/-! ## Reading -/

/-- `TEST_MASK(info.flags, MULTIBOOT_INFO_MEM_MAP)`. -/
def hasMemMap : Bool := m.read32 info &&& 0x40 != 0

/-- `has_modules`. -/
def hasModules : Bool :=
  m.read32 info &&& 0x8 != 0 && m.read32 (info + 20) != 0 && m.read32 (info + 24) != 0

/-- A `multiboot_module_t`. -/
def moduleAt (a : ℕ) : BootModule := ⟨.ofNat (m.read32 a), .ofNat (m.read32 (a + 4))⟩

/-- The modules that `for_each_module` passes on. -/
def modules : List BootModule :=
  if hasModules m info then
    (List.range (m.read32 (info + 20))).map fun i => moduleAt m (m.read32 (info + 24) + 16 * i)
  else []

/-- A `multiboot_memory_map_t` behind its size. -/
def entryAt (a : ℕ) : MemoryMapEntry :=
  ⟨.ofNat (m.read64 (a + 4)), .ofNat (m.read64 (a + 12)), .ofNat (m.read32 (a + 20))⟩

/-- The loop over the memory map; `none` when it has not ended by then. -/
def mmapLoop (mmapEnd : ℕ) : ℕ → ℕ → Pmm → Option (K Pmm)
  | 0, _, _ => none
  | fuel + 1, mmap, p =>
    if mmap < mmapEnd then
      match p.addEntry (entryAt m mmap) with
      | .error e => some (.error e)
      | .ok p => mmapLoop mmapEnd fuel (Word32.add (Word32.add mmap (m.read32 mmap)) 4) p
    else some (.ok p)

/-- `max_module_end_aligned`. -/
def maxModuleEndAligned : ℕ :=
  (modules m info).foldl
    (fun stop mod =>
      let alignedEnd := Word32.alignUp mod.modEnd.toNat pageSize
      if stop < alignedEnd then alignedEnd else stop) 0

/-- `pmm::init` behind the loop. -/
def reserve (img : KernelImage) (p : Pmm) : K Pmm := do
  let lowEnd := Word32.alignUp img.kernelEnd pageSize
  let modulesEnd := maxModuleEndAligned m info
  let lowEnd := if lowEnd < modulesEnd then modulesEnd else lowEnd
  let p ← p.reserveImage kernelStart img.kernelEnd
  let p ← (modules m info).foldlM (fun p mod => p.reserveImage mod.modStart.toNat mod.modEnd.toNat) p
  if lowUsableBase < lowEnd then p.deinitRegion lowUsableBase (Word32.sub lowEnd lowUsableBase)
  else return p

/-- `pmm::init`. -/
def initAt (fuel : ℕ) (img : KernelImage) (p : Pmm) : Option (K Pmm) :=
  if !hasMemMap m info then some (.error (.panic "Bootloader can't store memory map!\n"))
  else
    let mmap := m.read32 (info + 48)
    let mmapEnd := Word32.add mmap (m.read32 (info + 44))
    match p.memMngr.markUnitsUsed pmmSpec 0 maxFrames with
    | .error e => some (.error e)
    | .ok b => (mmapLoop m mmapEnd fuel mmap ⟨b, 0, 0⟩).map fun r => r >>= reserve m info img

/-! ## Writing -/

/-- The bytes of an entry of the memory map, with padding. -/
def encodeEntry (e : MemoryMapEntry × List UInt8) : List UInt8 :=
  Mem.leBytes 4 (20 + e.2.length) ++ Mem.leBytes 8 e.1.addr.toNat ++ Mem.leBytes 8 e.1.len.toNat ++
    Mem.leBytes 4 e.1.type.toNat ++ e.2

def encodeMap (es : List (MemoryMapEntry × List UInt8)) : List UInt8 := es.flatMap encodeEntry

/-- The bytes of a module, with the address of its command line. -/
def encodeModule (x : BootModule × UInt32) : List UInt8 :=
  Mem.leBytes 4 x.1.modStart.toNat ++ Mem.leBytes 4 x.1.modEnd.toNat ++ Mem.leBytes 4 x.2.toNat ++
    Mem.leBytes 4 0

def encodeModules (ms : List (BootModule × UInt32)) : List UInt8 := ms.flatMap encodeModule

/-- The information at `info` describes this memory map and these modules. -/
structure Describes (es : List (MemoryMapEntry × List UInt8)) (ms : List (BootModule × UInt32)) :
    Prop where
  memMap : hasMemMap m info = true
  mmapLength : m.read32 (info + 44) = (encodeMap es).length
  mmap : m.Holds (m.read32 (info + 48)) (encodeMap es)
  /-- The map ends below 4 GiB. -/
  mmapEnd : m.read32 (info + 48) + (encodeMap es).length < 4294967296
  modules : if ms = [] then hasModules m info = false
    else hasModules m info = true ∧ m.read32 (info + 20) = ms.length ∧
      m.Holds (m.read32 (info + 24)) (encodeModules ms)

/-! ## Round trip -/

variable {m info}

theorem length_encodeEntry (e : MemoryMapEntry × List UInt8) :
    (encodeEntry e).length = 24 + e.2.length := by
  unfold encodeEntry
  simp only [List.length_append, Mem.length_leBytes]

theorem length_encodeModule (x : BootModule × UInt32) : (encodeModule x).length = 16 := by
  unfold encodeModule
  simp only [List.length_append, Mem.length_leBytes]

/-- The size and the fields of an entry. -/
theorem entryAt_encode {a : ℕ} {e : MemoryMapEntry × List UInt8} (h : m.Holds a (encodeEntry e))
    (hlt : (encodeEntry e).length < 4294967296) :
    m.read32 a = 20 + e.2.length ∧ entryAt m a = e.1 := by
  rw [length_encodeEntry] at hlt
  unfold encodeEntry at h
  simp only [Mem.holds_append, List.length_append, Mem.length_leBytes] at h
  obtain ⟨⟨⟨⟨hsize, haddr⟩, hlen⟩, htype⟩, _⟩ := h
  have h0 : m.read32 a = 20 + e.2.length := by
    rw [hsize.read32 (by norm_num), Nat.mod_eq_of_lt (by omega)]
  have h1 : m.read64 (a + 4) = e.1.addr.toNat := haddr.read64 e.1.addr.toNat_lt
  have h2 : m.read64 (a + 12) = e.1.len.toNat := hlen.read64 e.1.len.toNat_lt
  have h3 : m.read32 (a + 20) = e.1.type.toNat := by
    rw [show a + 20 = a + (4 + 8 + 8) from rfl, htype.read32 (by norm_num),
      Nat.mod_eq_of_lt e.1.type.toNat_lt]
  refine ⟨h0, ?_⟩
  unfold entryAt
  rw [h1, h2, h3, UInt64.ofNat_toNat, UInt64.ofNat_toNat, UInt32.ofNat_toNat]

theorem moduleAt_encode {a : ℕ} {x : BootModule × UInt32} (h : m.Holds a (encodeModule x)) :
    moduleAt m a = x.1 := by
  unfold encodeModule at h
  simp only [Mem.holds_append, List.length_append, Mem.length_leBytes] at h
  obtain ⟨⟨⟨hstart, hend⟩, _⟩, _⟩ := h
  unfold moduleAt
  rw [hstart.read32 (by norm_num), hend.read32 (by norm_num),
    Nat.mod_eq_of_lt x.1.modStart.toNat_lt, Nat.mod_eq_of_lt x.1.modEnd.toNat_lt,
    UInt32.ofNat_toNat, UInt32.ofNat_toNat]

/-- **The memory map.** The loop ends and sees the entries in order. -/
theorem mmapLoop_encode {stop : ℕ} (hstop : stop < 4294967296) :
    ∀ {es : List (MemoryMapEntry × List UInt8)} {fuel a : ℕ} {p : Pmm},
      m.Holds a (encodeMap es) → a + (encodeMap es).length = stop → es.length < fuel →
      mmapLoop m stop fuel a p = some ((es.map Prod.fst).foldlM Pmm.addEntry p) := by
  intro es
  induction es with
  | nil =>
    intro fuel a p _ ha hf
    obtain ⟨fuel, rfl⟩ := Nat.exists_eq_succ_of_ne_zero (Nat.ne_of_gt hf)
    have hend : ¬ a < stop := by
      rw [← ha]
      exact lt_irrefl a
    rw [mmapLoop, if_neg hend]
    rfl
  | cons e es ih =>
    intro fuel a p h ha hf
    obtain ⟨fuel, rfl⟩ := Nat.exists_eq_succ_of_ne_zero (Nat.ne_of_gt (Nat.zero_lt_of_lt hf))
    have hmap : encodeMap (e :: es) = encodeEntry e ++ encodeMap es := List.flatMap_cons
    rw [List.length_cons] at hf
    rw [hmap, Mem.holds_append] at h
    rw [hmap, List.length_append] at ha
    have hlen := length_encodeEntry e
    obtain ⟨hsize, hentry⟩ := entryAt_encode h.1 (by omega)
    have hnext : Word32.add (Word32.add a (m.read32 a)) 4 = a + (encodeEntry e).length := by
      rw [hsize, Word32.add_eq (a := a) (by omega), Word32.add_eq (by omega)]
      omega
    rw [mmapLoop, if_pos (by omega), hentry, List.map_cons, List.foldlM_cons, hnext]
    cases hp : p.addEntry e.1 with
    | error _ => rfl
    | ok p' => exact ih h.2 (by omega) (Nat.succ_lt_succ_iff.1 hf)

theorem moduleAt_encodeModules : ∀ {ms : List (BootModule × UInt32)} {a : ℕ},
    m.Holds a (encodeModules ms) →
    (List.range ms.length).map (fun i => moduleAt m (a + 16 * i)) = ms.map Prod.fst := by
  intro ms
  induction ms with
  | nil => intro a _; rfl
  | cons x ms ih =>
    intro a h
    have hcons : encodeModules (x :: ms) = encodeModule x ++ encodeModules ms := List.flatMap_cons
    rw [hcons, Mem.holds_append, length_encodeModule] at h
    rw [List.length_cons, List.range_succ_eq_map, List.map_cons, List.map_cons, List.map_map,
      Nat.mul_zero, Nat.add_zero, moduleAt_encode h.1, ← ih h.2]
    refine congrArg _ (List.map_congr_left fun i _ => ?_)
    show moduleAt m (a + 16 * (i + 1)) = _
    rw [Nat.mul_add, Nat.mul_one, Nat.add_comm (16 * i) 16, ← Nat.add_assoc]

section

variable {es : List (MemoryMapEntry × List UInt8)} {ms : List (BootModule × UInt32)}

theorem Describes.modules_eq (h : Describes m info es ms) :
    BootInfo.modules m info = ms.map Prod.fst := by
  have hmods := h.modules
  unfold BootInfo.modules
  split_ifs at hmods with hms
  · rw [hmods, hms]
    rfl
  · rw [hmods.1, if_pos rfl, hmods.2.1]
    exact moduleAt_encodeModules hmods.2.2

/-- What `Pmm.init` takes. -/
def toMultiboot (es : List (MemoryMapEntry × List UInt8)) (ms : List (BootModule × UInt32)) :
    Multiboot := ⟨true, es.map Prod.fst, ms.map Prod.fst⟩

variable (es) in
theorem reserve_eq (hmods : BootInfo.modules m info = ms.map Prod.fst) (img : KernelImage)
    (p : Pmm) : reserve m info img p = (do
      let p ← p.reserveImage kernelStart img.kernelEnd
      let p ← (ms.map Prod.fst).foldlM
        (fun p mod => p.reserveImage mod.modStart.toNat mod.modEnd.toNat) p
      let lowEnd := Pmm.lowBootReservedEnd img (toMultiboot es ms)
      if lowUsableBase < lowEnd then p.deinitRegion lowUsableBase (Word32.sub lowEnd lowUsableBase)
      else return p) := by
  unfold reserve maxModuleEndAligned
  rw [hmods]
  rfl

/-- `pmm::init` on the bytes is `Pmm.init` on what they describe. -/
theorem Describes.initAt_eq (h : Describes m info es ms) (img : KernelImage) (p : Pmm) {fuel : ℕ}
    (hfuel : es.length < fuel) :
    initAt m info fuel img p = some (Pmm.init img p (toMultiboot es ms)) := by
  have hend : Word32.add (m.read32 (info + 48)) (m.read32 (info + 44)) =
      m.read32 (info + 48) + (encodeMap es).length := by
    rw [h.mmapLength, Word32.add_eq h.mmapEnd]
  unfold initAt Pmm.init
  rw [h.memMap, if_neg (by decide),
    if_neg (show ¬ (!(toMultiboot es ms).hasMemMap) = true from Bool.false_ne_true)]
  dsimp only
  rw [hend]
  cases p.memMngr.markUnitsUsed pmmSpec 0 maxFrames with
  | error _ => rfl
  | ok b =>
    dsimp only
    rw [mmapLoop_encode h.mmapEnd h.mmap rfl hfuel, Option.map_some]
    refine congrArg some ?_
    show _ = ((es.map Prod.fst).foldlM Pmm.addEntry ⟨b, 0, 0⟩ >>= _)
    refine congrArg _ (funext fun p => ?_)
    rw [reserve_eq es h.modules_eq]
    rfl

/-- **Booting.** On what a boot loader writes, whatever the map says, `pmm::init` ends after as many
turns as there are entries with the result of `Pmm.init` on what is described; available entries
below 4 GiB that share no address make an allocator whose records agree. -/
theorem boot_init (img : KernelImage) (p₀ : Pmm) (h : Describes m info es ms) :
    (∀ fuel, es.length < fuel →
      initAt m info fuel img p₀ = some (Pmm.init img p₀ (toMultiboot es ms))) ∧
    ((∀ e ∈ es.map Prod.fst, e.isAvailable = true → e.addr.toNat + e.len.toNat ≤ 4294967296) →
      ((es.map Prod.fst).Pairwise fun e e' => e.isAvailable = true → e'.isAvailable = true →
        ∀ x, ¬ (e.Contains x ∧ e'.Contains x)) →
      ∃ p, initAt m info (es.length + 1) img p₀ = some (.ok p) ∧
        Pmm.init img p₀ (toMultiboot es ms) = .ok p ∧ Pmm.Accounted p) := by
  refine ⟨fun fuel hfuel => h.initAt_eq img p₀ hfuel, fun hbelow hdisj => ?_⟩
  obtain ⟨_, _, _, p, hok, _⟩ := Pmm.exists_init_steps img p₀ (toMultiboot es ms) rfl
  have hA : Pmm.Account p ∅ := by
    refine Pmm.account_init ?_ ?_ hok
    · exact hbelow
    · exact hdisj
  refine ⟨p, ?_, hok, hA.accounted⟩
  rw [h.initAt_eq img p₀ (Nat.lt_succ_self _), hok]

end

/-- The machine `Multiboot.small`; the second entry has four bytes of padding. -/
def smallMap : List (MemoryMapEntry × List UInt8) :=
  [(⟨0, 0x9FC00, 1⟩, []), (⟨0x100000, 0x3FF00000, 1⟩, [0, 0, 0, 0])]

def smallModules : List (BootModule × UInt32) := [(⟨0x300000, 0x500000⟩, 0)]

/-- The information, the map and the modules, from 0x9000 on. -/
def smallBytes : List UInt8 :=
  Mem.leBytes 4 0x48 ++ List.replicate 16 0 ++ Mem.leBytes 4 1 ++ Mem.leBytes 4 0x9068 ++
    List.replicate 16 0 ++ Mem.leBytes 4 52 ++ Mem.leBytes 4 0x9034 ++ encodeMap smallMap ++
    encodeModules smallModules

def smallMem : Mem := fun a => if 0x9000 ≤ a then smallBytes.getD (a - 0x9000) 0 else 0

theorem describes_small : Describes smallMem 0x9000 smallMap smallModules :=
  ⟨by decide, by decide, by decide, by decide, by decide⟩

theorem boot_init_small :
    initAt smallMem 0x9000 5 .sample ⟨.empty, 0, 0⟩ =
      some (Pmm.init .sample ⟨.empty, 0, 0⟩ (toMultiboot smallMap smallModules)) ∧
    ∃ p, initAt smallMem 0x9000 3 .sample ⟨.empty, 0, 0⟩ = some (.ok p) ∧
      Pmm.init .sample ⟨.empty, 0, 0⟩ (toMultiboot smallMap smallModules) = .ok p ∧
        Pmm.Accounted p := by
  obtain ⟨h1, h2⟩ := boot_init .sample ⟨.empty, 0, 0⟩ describes_small
  refine ⟨h1 5 (by decide), h2 (by decide) ?_⟩
  refine List.pairwise_pair.2 fun _ _ x hx => ?_
  have h1 : x < 0x9FC00 := hx.1.2
  have h2 : 0x100000 ≤ x := hx.2.1
  omega

end BootInfo

end Ospp
