import Ospp.Lib.Cmd
import Ospp.Lib.Mem
import Ospp.Mm.HeapSpace

/-!
# The kernel heap

`Heap` from `mm/heap.cpp`, word by word: every header, footer and list link is read and written in
memory at the address the source computes, in the order of the source. The free chunks form a
circular list through the `list_head` in the heap object.

What surrounds the heap is a `HeapEnv`: which pages other parts of the kernel have mapped, whether
the physical memory can back a growth, and what the pages it is given contain.
-/

namespace Ospp

open Cmd

/-- What the kernel around the heap decides. -/
structure HeapEnv where
  /-- The pages mapped outside the heap. -/
  ext : ℕ → Bool
  /-- The identity window is mapped. -/
  ext_identity : ∀ v < 1024, ext v = true
  /-- `pmm::alloc_frames` finds the given number of frames, with as many in the heap already. -/
  frames : ℕ → ℕ → Bool
  /-- The contents of new pages. -/
  fill : Mem

/-- The heap object and the memory it works on. -/
structure Heap where
  endAddr : ℕ
  /-- The address of the `list_head`. -/
  head : ℕ
  mem : Mem

/-- What heap code does to memory; `e` is the end of the heap at that moment. -/
inductive HeapEvent where
  | read (a e : ℕ)
  | write (a e : ℕ)
  | unmap (a size : ℕ)
  /-- `map_heap_backing` from `a` on past the end of the address space. -/
  | remap (a size : ℕ)
  /-- `alloc_unlocked` calls itself, after `depth` calls by itself. -/
  | retry (depth : ℕ)
  deriving DecidableEq, Repr

/-- Heap code. -/
abbrev H (α : Type) := Cmd Heap HeapEvent Halt α

namespace Heap

/-- `assert(b)`. -/
def hassert (b : Bool) (expr : String) : H Unit := if b then pure () else fail (.assertion expr)

/-- An access to the byte does not fault. -/
def mapped (env : HeapEnv) (h : Heap) (a : ℕ) : Bool :=
  (decide (heapStart ≤ a) && decide (a < h.endAddr)) || env.ext (a / 4096)

section

variable (env : HeapEnv)

def load (a : ℕ) : H ℕ := do
  let h ← get
  if (h.mapped env a && h.mapped env (Word32.add a 3)) = true then
    emit (.read a h.endAddr)
    pure (h.mem.read32 a)
  else fail (.pageFault a)

def store (a v : ℕ) : H Unit := do
  let h ← get
  if (h.mapped env a && h.mapped env (Word32.add a 3)) = true then
    emit (.write a h.endAddr)
    modify fun h => { h with mem := h.mem.write32 a v }
  else fail (.pageFault a)

/-! ## Chunks -/

/-- `MIN_CHUNK_SIZE`. -/
def minChunkSize : ℕ := 16

/-- `pad_request`. -/
def padRequest (req : ℕ) : ℕ := Word32.add (Word32.add req 4) 7 &&& Word32.compl 7

def request2size (req : ℕ) : ℕ := if req < 11 then minChunkSize else padRequest req

/-- `p->head`. -/
def headOf (p : ℕ) : ℕ := Word32.add p 4

/-- `&p->list`. -/
def listOf (p : ℕ) : ℕ := Word32.add p 8

/-- `list_entry(l, HeapChunk_t, list)`. -/
def listEntry (l : ℕ) : ℕ := Word32.sub l 8

def chunksize (p : ℕ) : H ℕ := do
  let w ← load env (headOf p)
  return w &&& Word32.compl 7

def pinuse (p : ℕ) : H Bool := do
  let w ← load env (headOf p)
  return w &&& 1 != 0

def cinuse (p : ℕ) : H Bool := do
  let w ← load env (headOf p)
  return w &&& 2 != 0

def clearPinuse (p : ℕ) : H Unit := do
  let w ← load env (headOf p)
  store env (headOf p) (w &&& Word32.compl 1)

def setInuse (p s : ℕ) : H Unit := do
  let w ← load env (headOf p)
  store env (headOf p) ((w &&& 1) ||| 2 ||| s)
  let next := Word32.add p s
  let w ← load env (headOf next)
  store env (headOf next) (w ||| 1)

def setSizeAndPinuse (p s : ℕ) : H Unit := store env (headOf p) (s ||| 1)

def setFoot (p s : ℕ) : H Unit := store env (Word32.add p s) s

/-- `ok_address`. -/
def okAddress (h : Heap) (p : ℕ) : Bool := decide (heapStart ≤ p) && decide (p < h.endAddr)

/-! ## The free list -/

/-- More than there are addresses: a walk this long has met a link twice. -/
def listFuel : ℕ := 4294967296

/-- `__list_add`. -/
def listAdd (new prev next : ℕ) : H Unit := do
  store env (Word32.add next 4) new
  store env new next
  store env (Word32.add new 4) prev
  store env prev new

/-- `list_add_tail`. -/
def listAddTail (new head : ℕ) : H Unit := do
  let prev ← load env (Word32.add head 4)
  listAdd env new prev head

/-- `__list_del_entry`. -/
def listDelEntry (entry : ℕ) : H Unit := do
  let prev ← load env (Word32.add entry 4)
  let next ← load env entry
  store env (Word32.add next 4) prev
  store env prev next

def listEmpty : H Bool := do
  let h ← get
  let next ← load env h.head
  if next = h.head then return true
  else
    let next ← load env h.head
    return next == 0

/-- The loop of `findSmallestChunk` and `insertChunk`: the first link from `iter` on whose chunk has
the given size, or the list head. -/
def firstFit (size : ℕ) : ℕ → ℕ → H ℕ
  | 0, _ => fail .diverged
  | fuel + 1, iter => do
    let h ← get
    if iter = h.head then return iter
    else
      let s ← chunksize env (listEntry iter)
      if size ≤ s then return iter
      else
        let next ← load env iter
        firstFit size fuel next

def findSmallestChunk (size : ℕ) : H ℕ := do
  let h ← get
  let first ← load env h.head
  let iter ← firstFit env size listFuel first
  if iter = h.head then return 0 else return listEntry iter

def insertChunk (chunk : ℕ) : H Unit := do
  let h ← get
  let empty ← listEmpty env
  if empty then listAddTail env (listOf chunk) h.head
  else
    let csize ← chunksize env chunk
    let first ← load env h.head
    let iter ← firstFit env csize listFuel first
    listAddTail env (listOf chunk) iter

def removeChunk (chunk : ℕ) : H Unit := listDelEntry env (listOf chunk)

/-! ## Growing and shrinking -/

/-- `expand_unlocked`. -/
def expandUnlocked (newSize : ℕ) : H Unit := do
  let h ← get
  let newEnd ← Cmd.lift (expandEnd h.endAddr newSize)
  let size := Word32.sub newEnd h.endAddr
  if size = 0 then pure ()
  else if env.frames (Word32.sub h.endAddr heapStart / pageSize) (size / pageSize) = true then
    if newEnd < h.endAddr then do
      -- the new pages cover the page directory, at the top of the address space
      emit (.remap h.endAddr size)
      fail (.corrupt "page directory")
    else
      modify fun h => { h with
        endAddr := newEnd
        mem := fun a => if h.endAddr ≤ a ∧ a < newEnd then env.fill a else h.mem a }
  else fail (.panic "alloc_units: out of memory")

/-- `contract_unlocked`. -/
def contractUnlocked (newSize : ℕ) : H ℕ := do
  let h ← get
  let newEnd ← Cmd.lift (contractEnd h.endAddr newSize)
  modify fun h => { h with endAddr := newEnd }
  let size := Word32.sub h.endAddr newEnd
  if size = 0 then return Word32.sub newEnd heapStart
  else
    emit (.unmap newEnd size)
    return Word32.sub newEnd heapStart

/-! ## Allocation -/

/-- The loop of `alloc_unlocked` that looks for the link with the highest address. -/
def highestLink : ℕ → ℕ → ℕ → H ℕ
  | 0, _, _ => fail .diverged
  | fuel + 1, iter, tmp => do
    let h ← get
    if iter = h.head then return tmp
    else
      let next ← load env iter
      highestLink fuel next (if tmp < iter then iter else tmp)

/-- The top chunk after a growth: the old one if it reached the old end, else a new one. -/
def topChunk (oldEndAddr tmp : ℕ) : H (ℕ × ℕ) := do
  let h ← get
  let fresh := (oldEndAddr, Word32.sub h.endAddr oldEndAddr)
  if tmp = 0 then return fresh
  else
    let top := listEntry tmp
    let p ← pinuse env top
    let c ← cinuse env top
    if (!p && c) = true then fail (.panic "(alloc) Memory Corrupt")
    else
      let oldCsize ← chunksize env top
      if Word32.add top oldCsize ≠ oldEndAddr then return fresh
      else
        removeChunk env top
        return (top, Word32.sub h.endAddr top)

/-- The branch of `alloc_unlocked` without a hole. -/
def growTop (nb : ℕ) : H Unit := do
  let h ← get
  let oldSize := Word32.sub h.endAddr heapStart
  expandUnlocked env (Word32.add oldSize nb)
  let empty ← listEmpty env
  let tmp ← if empty then pure 0 else do
    let first ← load env h.head
    highestLink env listFuel first 0
  let (top, csize) ← topChunk env h.endAddr tmp
  setSizeAndPinuse env top csize
  insertChunk env top

/-- Marking a hole that has left the list as used, split if the rest makes a chunk. -/
def splitHole (hole nb : ℕ) : H Unit := do
  let s ← chunksize env hole
  if Word32.add nb minChunkSize ≤ s then
    let s ← chunksize env hole
    let nsize := Word32.sub s nb
    let new := Word32.add hole nb
    store env (headOf new) nsize
    insertChunk env new
    setInuse env hole nb
  else
    let nb ← chunksize env hole
    setInuse env hole nb

/-- The branch of `alloc_unlocked` with a hole. -/
def takeHole (hole nb : ℕ) : H ℕ := do
  let s ← chunksize env hole
  hassert (decide (nb ≤ s)) "chunksize(hole) >= nb"
  removeChunk env hole
  splitHole env hole nb
  return listOf hole

def allocUnlocked (size : ℕ) : ℕ → ℕ → H ℕ
  | 0, _ => fail .diverged
  | fuel + 1, depth => do
    let nb := request2size size
    let hole ← findSmallestChunk env nb
    if hole = 0 then
      growTop env nb
      emit (.retry depth)
      allocUnlocked size fuel (depth + 1)
    else takeHole env hole nb

/-- `Heap::alloc`. Every call of `alloc_unlocked` by itself follows a growth by a page. -/
def alloc (size : ℕ) : H ℕ := allocUnlocked env size listFuel 0

/-! ## Release -/

/-- The part of `free_unlocked` that looks at the chunk before. -/
def mergePrev (block size : ℕ) : H (ℕ × ℕ) := do
  let p ← pinuse env block
  if p then return (block, size)
  else
    let prevsize ← load env block
    let prev := Word32.sub block prevsize
    let h ← get
    if h.okAddress prev then
      removeChunk env prev
      return (prev, Word32.add size prevsize)
    else fail (.panic "(free) Memory Corrupt")

/-- The label `_Lassert2`. -/
def corruptAfterMerge {α : Type} (block : ℕ) : H α := do
  insertChunk env block
  fail (.panic "(free) Memory Corrupt")

/-- The part of `free_unlocked` that looks at the chunk after. -/
def mergeNext (block size next : ℕ) : H ℕ := do
  let h ← get
  if h.okAddress next then
    let p ← pinuse env next
    if p then
      let c ← cinuse env next
      if c then
        clearPinuse env next
        return size
      else
        let nextsize ← chunksize env next
        if h.endAddr < Word32.add next nextsize then corruptAfterMerge env block
        else
          removeChunk env next
          return Word32.add size nextsize
    else corruptAfterMerge env block
  else return size

/-- The part of `free_unlocked` that shrinks the heap, or writes the footer. -/
def trimTop (block size : ℕ) : H (ℕ × ℕ) := do
  let h ← get
  if Word32.add block size = h.endAddr then
    let oldSize := Word32.sub h.endAddr heapStart
    let newSize := Word32.sub block heapStart
    let newSize ← contractUnlocked
      (if newSize % pageSize ≠ 0 then Word32.add newSize minChunkSize else newSize)
    if Word32.sub oldSize newSize < size then
      return (block, Word32.sub size (Word32.sub oldSize newSize))
    else return (0, 0)
  else
    setFoot env block size
    return (block, size)

def freeUnlocked (ptr : ℕ) : H Unit := do
  if ptr = 0 then return ()
  else
    let block := Word32.sub ptr 8
    let size ← chunksize env block
    let next := Word32.add block size
    let h ← get
    if h.okAddress ptr then
      let w ← load env (headOf block)
      if w &&& 3 ≠ 1 then
        let (block, size) ← mergePrev env block size
        let size ← mergeNext env block size next
        let (block, size) ← trimTop env block size
        if block ≠ 0 ∧ size ≠ 0 then
          setSizeAndPinuse env block size
          insertChunk env block
        else return ()
      else fail (.panic "(free) Memory Corrupt")
    else fail (.panic "(free) Memory Corrupt")

/-- `Heap::free`. -/
def free (ptr : ℕ) : H Unit := freeUnlocked env ptr

/-! ## Aligned allocation -/

/-- The part of `palignedAlloc_unlocked` that skips to a page boundary. -/
def skipLead (mem : ℕ) : H ℕ := do
  let chunk := Word32.sub mem 8
  if mem % pageSize ≠ 0 then
    let br := Word32.sub (Word32.add (Word32.alignDown mem pageSize) pageSize) 8
    let pos := if minChunkSize ≤ Word32.sub br chunk then br else Word32.add br pageSize
    let leadsize := Word32.sub pos chunk
    let s ← chunksize env chunk
    let newSize := Word32.sub s leadsize
    setInuse env pos newSize
    setSizeAndPinuse env chunk leadsize
    store env pos leadsize
    insertChunk env chunk
    return pos
  else return chunk

/-- The part of `palignedAlloc_unlocked` that gives back the tail. -/
def splitTail (chunk nb : ℕ) : H Unit := do
  let csize ← chunksize env chunk
  if Word32.add nb minChunkSize < csize then
    let remainderSize := Word32.sub csize nb
    let remainder := Word32.add chunk nb
    setInuse env chunk nb
    setInuse env remainder remainderSize
    freeUnlocked env (listOf remainder)
  else return ()

/-- `palignedAlloc_unlocked`. -/
def palignedAllocUnlocked (size : ℕ) : H ℕ := do
  let nb := request2size size
  let req := Word32.sub (Word32.add (Word32.add nb pageSize) minChunkSize) 4
  let mem ← alloc env req
  if mem = 0 then return 0
  else
    let chunk ← skipLead env mem
    splitTail env chunk nb
    let mem := listOf chunk
    let s ← chunksize env chunk
    hassert (decide (nb ≤ s)) "chunksize(chunk) >= nb"
    hassert (decide (mem % pageSize = 0)) "((size_t)mem % mm::PAGE_SIZE) == 0"
    let c ← cinuse env chunk
    hassert c "cinuse(chunk)"
    return mem

/-- `Heap::palignedAlloc`. -/
def palignedAlloc (size : ℕ) : H ℕ := palignedAllocUnlocked env size

/-! ## Construction -/

/-- `Heap::Heap`, over the heap window. -/
def construct : H Unit := do
  let h ← get
  let size := alignHeapSize heapMinSize
  hassert (decide (heapStart % pageSize = 0)) "start % mm::PAGE_SIZE == 0"
  hassert (decide (Word32.add heapStart size % pageSize = 0)) "end % mm::PAGE_SIZE == 0"
  store env h.head h.head
  store env (Word32.add h.head 4) h.head
  if env.frames 0 (size / pageSize) = true then
    modify fun h => { h with
      endAddr := Word32.add heapStart size
      mem := fun a => if heapStart ≤ a ∧ a < Word32.add heapStart size then env.fill a
        else h.mem a }
    store env heapStart 0
    setSizeAndPinuse env heapStart size
    insertChunk env heapStart
  else fail (.panic "alloc_units: out of memory")

end

end Heap

end Ospp
