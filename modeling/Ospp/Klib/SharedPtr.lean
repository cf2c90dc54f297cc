import Ospp.Lib.Cmd
import Ospp.Lib.RefCount
import Ospp.Lib.Trans
import Ospp.Lib.Word

/-!
# `shared_ptr`

The handles are the `shared_ptr` objects of a program, each a pointer of four bytes at an aligned
address. A handle is free-standing, or it is a member of a managed object: `delete` on the object
ends the life of its members, last declared first, and each of them releases what it holds. An
access to a handle that does not live or to a control block that has been freed is a fault.

A managed object is what it is to this code: its handles. A raw pointer that is handed over is that
of a new object, which no other handle manages.
-/

namespace Ospp

open Cmd

namespace SharedPtr

/-- Where a handle can be. -/
def Cell : Type := Fin 1073741824
  deriving DecidableEq

/-- `ptr_block`, with the handles in the object. -/
structure PtrBlock where
  ptr : Option (List Cell)
  refcount : ℕ
  deriving DecidableEq

/-- The handles alive, each empty or with its block, the blocks allocated, and the objects handed
over and deleted so far, by their blocks. -/
structure State where
  cells : Cell → Option (Option ℕ)
  blocks : ℕ → Option PtrBlock
  next : ℕ
  made : List ℕ
  deleted : List ℕ

inductive Fault
  /-- A handle is accessed that does not live. -/
  | destroyed
  /-- A block is accessed that has been freed. -/
  | freed
  | diverged
  deriving DecidableEq, Repr

abbrev P (α : Type) := Cmd State Empty Fault α

namespace State

def setCell (s : State) (c : Cell) (v : Option (Option ℕ)) : State :=
  { s with cells := Function.update s.cells c v }

def setBlk (s : State) (b : ℕ) (blk : Option PtrBlock) : State :=
  { s with blocks := Function.update s.blocks b blk }

end State

/-! ## The class -/

def block (c : Cell) : P (Option ℕ) := do
  let s ← get
  match s.cells c with
  | some v => return v
  | none => fail .destroyed

def setBlock (c : Cell) (v : Option ℕ) : P Unit := do
  let s ← get
  match s.cells c with
  | some _ => modify fun s => s.setCell c (some v)
  | none => fail .destroyed

/-- A constructor's first write. -/
def place (c : Cell) (v : Option ℕ) : P Unit := modify fun s => s.setCell c (some v)

def fetchAdd (b : ℕ) : P Unit := do
  let s ← get
  match s.blocks b with
  | some blk =>
    modify fun s => s.setBlk b (some { blk with refcount := Word32.add blk.refcount 1 })
  | none => fail .freed

/-- The count before, and the pointer. -/
def fetchSub (b : ℕ) : P PtrBlock := do
  let s ← get
  match s.blocks b with
  | some blk =>
    modify fun s => s.setBlk b (some { blk with refcount := Word32.sub blk.refcount 1 })
    return blk
  | none => fail .freed

/-- `if (block) block->refcount.fetch_add(1)`. -/
def addRef : Option ℕ → P Unit
  | some b => fetchAdd b
  | none => pure ()

/-- The members' destructors. -/
def destroyAll (rel : Cell → P Unit) : List Cell → P Unit
  | [] => pure ()
  | m :: ms => do
    rel m
    modify fun s => s.setCell m none
    destroyAll rel ms

/-- `if (old->ptr) delete old->ptr`. -/
def deleteObject (rel : Cell → P Unit) (old : ℕ) : Option (List Cell) → P Unit
  | none => pure ()
  | some members => do
    modify fun s => { s with deleted := s.deleted ++ [old] }
    destroyAll rel members.reverse

def releaseFuel : ℕ → Cell → P Unit
  | 0, _ => fail .diverged
  | fuel + 1, c => do
    match ← block c with
    | none => pure ()
    | some old => do
      setBlock c none
      let blk ← fetchSub old
      if blk.refcount = 1 then do
        deleteObject (releaseFuel fuel) old blk.ptr
        modify fun s => s.setBlk old none
      else pure ()

/-- `release`. A release goes from one object into another at most once for each block. -/
def release (c : Cell) : P Unit := do
  let s ← get
  releaseFuel (s.next + 1) c

/-- `new ptr_block{ptr, 1}`. -/
def newBlock (ptr : Option (List Cell)) : P ℕ := do
  let s ← get
  modify fun s => { s.setBlk s.next (some ⟨ptr, 1⟩) with
    next := s.next + 1
    made := if ptr.isSome then s.made ++ [s.next] else s.made }
  return s.next

/-- `new T`: the handles of the object are empty. -/
def newObject : Option (List Cell) → P Unit
  | none => pure ()
  | some members => modify fun s =>
    { s with cells := fun c => if c ∈ members then some none else s.cells c }

/-- `shared_ptr()`. -/
def ctor (c : Cell) : P Unit := place c none

/-- `shared_ptr(T*)`. -/
def ctorPtr (c : Cell) (ptr : Option (List Cell)) : P Unit := do
  let b ← newBlock ptr
  place c (some b)

/-- `shared_ptr(const shared_ptr&)`. -/
def ctorCopy (c other : Cell) : P Unit := do
  let v ← block other
  place c v
  addRef v

/-- `shared_ptr(shared_ptr&&)`. -/
def ctorMove (c other : Cell) : P Unit := do
  let v ← block other
  place c v
  setBlock other none

/-- `operator=(const shared_ptr&)`. -/
def assign (c other : Cell) : P Unit :=
  if c ≠ other then do
    release c
    let v ← block other
    setBlock c v
    addRef v
  else pure ()

/-- `operator=(shared_ptr&&)`. -/
def assignMove (c other : Cell) : P Unit :=
  if c ≠ other then do
    release c
    let v ← block other
    setBlock c v
    setBlock other none
  else pure ()

/-- `~shared_ptr`, and the end of the handle. -/
def dtor (c : Cell) : P Unit := do
  release c
  modify fun s => s.setCell c none

/-- `reset()`. -/
def reset (c : Cell) : P Unit := do
  release c
  setBlock c none

/-- `reset(T*)`. -/
def resetPtr (c : Cell) (ptr : Option (List Cell)) : P Unit := do
  release c
  match ptr with
  | some members => do
    let b ← newBlock (some members)
    setBlock c (some b)
  | none => setBlock c none

/-! ## Programs -/

inductive Act
  | ctor (c : Cell)
  | ctorPtr (c : Cell) (ptr : Option (List Cell))
  | ctorCopy (c other : Cell)
  | ctorMove (c other : Cell)
  | assign (c other : Cell)
  | assignMove (c other : Cell)
  | reset (c : Cell)
  | resetPtr (c : Cell) (ptr : Option (List Cell))
  | dtor (c : Cell)

def Act.run : Act → P Unit
  | .ctor c => SharedPtr.ctor c
  | .ctorPtr c ptr => do
    newObject ptr
    SharedPtr.ctorPtr c ptr
  | .ctorCopy c other => SharedPtr.ctorCopy c other
  | .ctorMove c other => SharedPtr.ctorMove c other
  | .assign c other => SharedPtr.assign c other
  | .assignMove c other => SharedPtr.assignMove c other
  | .reset c => SharedPtr.reset c
  | .resetPtr c ptr => do
    newObject ptr
    SharedPtr.resetPtr c ptr
  | .dtor c => SharedPtr.dtor c

namespace State

/-- No handle, no block. -/
def init : State := ⟨fun _ => none, fun _ => none, 0, [], []⟩

def Live (s : State) (c : Cell) : Prop := (s.cells c).isSome = true

instance (s : State) (c : Cell) : Decidable (s.Live c) := inferInstanceAs (Decidable (_ = true))

def Points (s : State) (c : Cell) (b : ℕ) : Prop := s.cells c = some (some b)

instance (s : State) (c : Cell) (b : ℕ) : Decidable (s.Points c b) :=
  inferInstanceAs (Decidable (_ = _))

/-- The handles in the object of a block. -/
def members (s : State) (b : ℕ) : List Cell := ((s.blocks b).bind PtrBlock.ptr).getD []

/-- The handle is in no object. -/
def Free (s : State) (c : Cell) : Prop := ∀ b < s.next, c ∉ s.members b

instance (s : State) (c : Cell) : Decidable (s.Free c) :=
  inferInstanceAs (Decidable (∀ b < _, _))

/-- The blocks that are deleted when the handle lets go of its block. -/
def Dies (s : State) : Cell → ℕ → Prop := RefCount.Dies s.Points fun c b => c ∈ s.members b

/-- The handle `c` is in an object that is deleted when `t` lets go of its block. -/
def Doomed (s : State) (t c : Cell) : Prop := ∃ b, s.Dies t b ∧ c ∈ s.members b

/-- The addresses are those of a new object's handles. -/
def Fresh (s : State) (ptr : Option (List Cell)) : Prop :=
  ∀ ms ∈ ptr, ms.Nodup ∧ ∀ m ∈ ms, ¬ s.Live m

instance (s : State) (ptr : Option (List Cell)) : Decidable (s.Fresh ptr) :=
  inferInstanceAs (Decidable (∀ ms ∈ ptr, _))

/-- What a program can do: it names handles that live, constructs where none lives, and destroys
those that are in no object. -/
def Valid (s : State) : Act → Prop
  | .ctor c => ¬ s.Live c
  | .ctorPtr c ptr => ¬ s.Live c ∧ s.Fresh ptr ∧ ∀ ms ∈ ptr, c ∉ ms
  | .ctorCopy c other => ¬ s.Live c ∧ s.Live other
  | .ctorMove c other => ¬ s.Live c ∧ s.Live other
  | .assign c other => s.Live c ∧ s.Live other
  | .assignMove c other => s.Live c ∧ s.Live other
  | .reset c => s.Live c
  | .resetPtr c ptr => s.Live c ∧ s.Fresh ptr
  | .dtor c => s.Live c ∧ s.Free c

instance (s : State) : (a : Act) → Decidable (s.Valid a)
  | .ctor _ => inferInstanceAs (Decidable (¬ _))
  | .ctorPtr _ ptr => inferInstanceAs (Decidable (_ ∧ _ ∧ ∀ ms ∈ ptr, _))
  | .ctorCopy _ _ => inferInstanceAs (Decidable (_ ∧ _))
  | .ctorMove _ _ => inferInstanceAs (Decidable (_ ∧ _))
  | .assign _ _ => inferInstanceAs (Decidable (_ ∧ _))
  | .assignMove _ _ => inferInstanceAs (Decidable (_ ∧ _))
  | .reset _ => inferInstanceAs (Decidable (State.Live _ _))
  | .resetPtr _ _ => inferInstanceAs (Decidable (_ ∧ _))
  | .dtor _ => inferInstanceAs (Decidable (_ ∧ _))

/-- The release that an assignment or a reset starts with does not destroy the handle assigned to
or the one assigned from. -/
def Spares (s : State) : Act → Prop
  | .assign c other => c = other ∨ ¬ s.Doomed c c ∧ ¬ s.Doomed c other
  | .assignMove c other => c = other ∨ ¬ s.Doomed c c ∧ ¬ s.Doomed c other
  | .reset c => ¬ s.Doomed c c
  | .resetPtr c _ => ¬ s.Doomed c c
  | _ => True

end State

end SharedPtr

end Ospp
