import Mathlib.Tactic
import Ospp.Lib.Trans

/-!
# Spin locks, interrupts and preemption

The locks of `Linker`, `Heap`, `vmm` and `pmm` as the cores see them. An operation is the list of
what it does to locks and interrupts: `SpinLockGuard` takes a lock and leaves interrupts alone,
`InterruptSpinLockGuard` turns them off first, `flush_remote_tlbs` waits for every other core to run
its handler. Which pages need a frame, whether an allocation grows the heap and how many frames a
stack trace has is left open, so the operations range over everything the code may do.

Tasks are bound to cores. A core with interrupts on switches to another of its tasks at any moment,
and answers a shootdown at any moment; a core with interrupts off does neither. A core is wedged
when the lock it spins on is its own, or has a holder that waits for this core to take an interrupt
it has turned off. `never_wedged` is the discipline that keeps every core out of that state,
`heap_wedged_by_preempted_frames` a run on one core in which the code does not follow it.
-/

namespace Ospp

open Trans

inductive KLock where
  | linker
  | heap
  | vmm
  | pmm
  deriving DecidableEq, Repr

instance : Fintype KLock := ⟨{.linker, .heap, .vmm, .pmm}, fun l => by cases l <;> decide⟩

/-- What an operation does to locks and interrupts. -/
inductive LockInstr where
  /-- The constructor of `InterruptGuard`. -/
  | cli
  /-- Its destructor. -/
  | restore
  | lock (l : KLock)
  | unlock (l : KLock)
  /-- `flush_remote_tlbs`. -/
  | flush
  /-- `for (;;);`. -/
  | halt
  deriving DecidableEq, Repr

/-! ## The operations -/

/-- `pmm::alloc_frames` and `pmm::free_frames`. -/
def framesProg : List LockInstr := [.lock .pmm, .unlock .pmm]

/-- `vmm::is_mapped` and `vmm::virt_to_phys`. -/
def queryProg : List LockInstr := [.lock .vmm, .unlock .vmm]

/-- `vmm::map_pages` and `vmm::unmap_pages`: page by page, whether a page table is allocated or a
frame given back. -/
def updateProg (pages : List Bool) : List LockInstr :=
  .lock .vmm :: ((pages.flatMap fun b => if b then framesProg else []) ++ [.flush, .unlock .vmm])

/-- `expand_unlocked` and `contract_unlocked`. -/
inductive HeapPart where
  | expand (pages : List Bool)
  | contract (pages : List Bool)
  deriving DecidableEq, Repr

def HeapPart.prog : HeapPart → List LockInstr
  | .expand pages => framesProg ++ updateProg pages
  | .contract pages => queryProg ++ updateProg pages

/-- `Heap::alloc`, `Heap::palignedAlloc` and `Heap::free`. -/
def heapProg (parts : List HeapPart) : List LockInstr :=
  .cli :: .lock .heap :: (parts.flatMap HeapPart.prog ++ [.unlock .heap, .restore])

/-- What `Linker::load` and `Linker::unload` call. -/
inductive LinkerPart where
  | frames
  | update (pages : List Bool)
  | heap (parts : List HeapPart)
  deriving DecidableEq, Repr

def LinkerPart.prog : LinkerPart → List LockInstr
  | .frames => framesProg
  | .update pages => updateProg pages
  | .heap parts => heapProg parts

def linkerProg (parts : List LinkerPart) : List LockInstr :=
  .cli :: .lock .linker :: (parts.flatMap LinkerPart.prog ++ [.unlock .linker, .restore])

inductive KernelOp where
  | frames
  | query
  | update (pages : List Bool)
  | heap (parts : List HeapPart)
  | linker (parts : List LinkerPart)
  deriving DecidableEq, Repr

def KernelOp.prog : KernelOp → List LockInstr
  | .frames => framesProg
  | .query => queryProg
  | .update pages => updateProg pages
  | .heap parts => heapProg parts
  | .linker parts => linkerProg parts

/-- `kstd::_panic` with `n` frames on the stack it walks. -/
def panicProg : ℕ → List LockInstr
  | 0 => [.halt]
  | n + 1 => queryProg ++ panicProg n

/-- The locks an operation still takes. -/
def locksOf (p : List LockInstr) : List KLock :=
  p.filterMap fun
    | .lock l => some l
    | _ => none

/-! ## Cores and tasks -/

/-- The cores and the tasks bound to them. -/
structure LockMachine where
  count : ℕ
  /-- The cores a shootdown addresses. -/
  initialized : ℕ → Bool
  core : ℕ → ℕ
  /-- The task each core starts with. -/
  first : ℕ → ℕ
  core_first : ∀ c, core (first c) = c

structure KTask where
  prog : List LockInstr
  /-- Interrupts are on while the task runs. -/
  ints : Bool
  /-- `should_enable` of the open `InterruptGuard`s. -/
  saved : List Bool
  /-- In the final loop of `flush_remote_tlbs`. -/
  waiting : Bool
  deriving DecidableEq, Repr

structure LockState where
  task : ℕ → KTask
  running : ℕ → ℕ
  holder : KLock → Option ℕ
  /-- The cores that have not yet run the shootdown handler. -/
  awaiting : ℕ → Bool

inductive LockAct where
  /-- The running task of core `c` calls an operation. -/
  | call (c : ℕ) (op : KernelOp)
  /-- It takes its next step. -/
  | exec (c : ℕ)
  /-- The timer interrupts core `c`, which goes on with task `t`. -/
  | tick (c t : ℕ)
  /-- Core `c` runs `tlb_shootdown_handler`. -/
  | ack (c : ℕ)
  /-- The running task of core `c` panics, in the handler of an exception or directly. -/
  | panic (c n : ℕ) (exception : Bool)
  deriving DecidableEq, Repr

namespace LockState

def start (m : LockMachine) : LockState :=
  ⟨fun _ => ⟨[], true, [], false⟩, m.first, fun _ => none, fun _ => false⟩

/-- The running task of a core. -/
def cur (s : LockState) (c : ℕ) : KTask := s.task (s.running c)

def setTask (s : LockState) (t : ℕ) (k : KTask) : LockState :=
  { s with task := Function.update s.task t k }

def setHolder (s : LockState) (l : KLock) (h : Option ℕ) : LockState :=
  { s with holder := Function.update s.holder l h }

@[simp] theorem setTask_task (s : LockState) (t : ℕ) (k : KTask) :
    (s.setTask t k).task = Function.update s.task t k := rfl

@[simp] theorem setTask_holder (s : LockState) (t : ℕ) (k : KTask) :
    (s.setTask t k).holder = s.holder := rfl

@[simp] theorem setHolder_task (s : LockState) (l : KLock) (h : Option ℕ) :
    (s.setHolder l h).task = s.task := rfl

@[simp] theorem setHolder_holder (s : LockState) (l : KLock) (h : Option ℕ) :
    (s.setHolder l h).holder = Function.update s.holder l h := rfl

/-- The next step of the task that core `c` runs. -/
def exec (m : LockMachine) (s : LockState) (c : ℕ) : Option LockState :=
  let t := s.running c
  let k := s.cur c
  match k.prog with
  | [] => none
  | .cli :: p => some (s.setTask t { k with prog := p, ints := false, saved := k.ints :: k.saved })
  | .restore :: p =>
    match k.saved with
    | [] => none
    | b :: saved => some (s.setTask t { k with prog := p, ints := k.ints || b, saved := saved })
  | .lock l :: p =>
    match s.holder l with
    -- one more turn of the spin loop
    | some _ => some s
    | none => some ((s.setTask t { k with prog := p }).setHolder l (some t))
  | .unlock l :: p => some ((s.setTask t { k with prog := p }).setHolder l none)
  | .flush :: p =>
    if k.waiting then
      if (List.range m.count).any s.awaiting then some s
      else some (s.setTask t { k with prog := p, waiting := false })
    else
      some { s.setTask t { k with waiting := true } with
        awaiting := fun b => decide (b < m.count) && m.initialized b && b != c }
  | .halt :: _ => some s

def step (m : LockMachine) (s : LockState) : LockAct → Option LockState
  | .call c op =>
    if (s.cur c).prog = [] then some (s.setTask (s.running c) { s.cur c with prog := op.prog })
    else none
  | .exec c => s.exec m c
  | .tick c t =>
    if (s.cur c).ints = true ∧ m.core t = c then
      some { s with running := Function.update s.running c t }
    else none
  | .ack c =>
    if (s.cur c).ints = true ∧ s.awaiting c = true then
      some { s with awaiting := Function.update s.awaiting c false }
    else none
  | .panic c n exception =>
    some (s.setTask (s.running c)
      { s.cur c with
        prog := panicProg n, ints := (s.cur c).ints && !exception, waiting := false })

def Step (m : LockMachine) (s : LockState) (a : LockAct) (s' : LockState) : Prop :=
  s.step m a = some s'

/-- The holder of the lock cannot go on before core `c` takes an interrupt: it was preempted there,
or waits for its acknowledgement. -/
def heldUp (m : LockMachine) (s : LockState) (c : ℕ) (l : KLock) : Bool :=
  (s.holder l).any fun h =>
    (m.core h == c && h != s.running c) || ((s.task h).waiting && s.awaiting c)

/-- Core `c` spins on a lock whose holder can never run: the spinner itself, or, with interrupts
off, a task preempted on the same core or waiting for the core's acknowledgement. -/
def Wedged (m : LockMachine) (s : LockState) (c : ℕ) : Prop :=
  ∃ l p h, (s.cur c).prog = .lock l :: p ∧ s.holder l = some h ∧
    (h = s.running c ∨ ((s.cur c).ints = false ∧
      ((m.core h = c ∧ h ≠ s.running c) ∨ ((s.task h).waiting = true ∧ s.awaiting c = true))))

/-- The discipline. Interrupts are turned off by an operation only when none of the locks it takes
is held up on this core; a shootdown is started only when no other core has them off on the way to
a lock the flushing task holds; `panic` is called only when its stack trace can have the lock of the
page tables. -/
def orderly (m : LockMachine) (s : LockState) : LockAct → Bool
  | .exec c =>
    match (s.cur c).prog with
    | .cli :: p => !(s.cur c).ints || (locksOf p).all fun l => !s.heldUp m c l
    | .flush :: _ =>
      (s.cur c).waiting || (List.range m.count).all fun b =>
        b == c || !m.initialized b || (s.cur b).ints ||
          (locksOf (s.cur b).prog).all fun l => s.holder l != some (s.running c)
    | _ => true
  | .panic c n exception =>
    n == 0 || (s.holder .vmm != some (s.running c) &&
      (((s.cur c).ints && !exception) || !s.heldUp m c .vmm))
  | _ => true

/-! ## What a task holds -/

/-- The locks a task holds. -/
def held (s : LockState) (t : ℕ) : Finset KLock :=
  Finset.univ.filter fun l => s.holder l = some t

@[simp] theorem mem_held {s : LockState} {t : ℕ} {l : KLock} :
    l ∈ s.held t ↔ s.holder l = some t := by
  unfold held
  rw [Finset.mem_filter]
  exact and_iff_right (Finset.mem_univ l)

end LockState

/-- With the given interrupt flag, open guards and locks the rest of an operation takes no lock it
has, gives back no lock it has not, flushes under the lock of the page tables, and ends with
everything as it was before the first guard; a panic does not end. -/
def Sound : Bool → List Bool → Finset KLock → List LockInstr → Prop
  | i, sv, hs, [] => i = true ∧ sv = [] ∧ hs = ∅
  | i, sv, hs, .cli :: p => Sound false (i :: sv) hs p
  | _, [], _, .restore :: _ => False
  | i, b :: sv, hs, .restore :: p => Sound (i || b) sv hs p
  | i, sv, hs, .lock l :: p => l ∉ hs ∧ Sound i sv (insert l hs) p
  | i, sv, hs, .unlock l :: p => l ∈ hs ∧ Sound i sv (hs.erase l) p
  | i, sv, hs, .flush :: p => .vmm ∈ hs ∧ Sound i sv hs p
  | _, _, _, .halt :: _ => True

/-- The steps leave flag, guards and locks as they found them. -/
def Block (i : Bool) (sv : List Bool) (hs : Finset KLock) (p : List LockInstr) : Prop :=
  ∀ q, Sound i sv hs q → Sound i sv hs (p ++ q)

section

variable {i : Bool} {sv : List Bool} {hs : Finset KLock}

theorem Block.append {p q : List LockInstr} (hp : Block i sv hs p) (hq : Block i sv hs q) :
    Block i sv hs (p ++ q) := by
  intro r hr
  rw [List.append_assoc]
  exact hp _ (hq r hr)

theorem Block.flatMap {α : Type} {f : α → List LockInstr} {as : List α}
    (h : ∀ a, Block i sv hs (f a)) : Block i sv hs (as.flatMap f) := by
  induction as with
  | nil => exact fun q hq => hq
  | cons a as ih =>
    rw [List.flatMap_cons]
    exact (h a).append ih

/-- A lock taken and given back around a block. -/
theorem Block.locked {l : KLock} {p : List LockInstr} (hl : l ∉ hs)
    (hp : Block i sv (insert l hs) p) : Block i sv hs (.lock l :: (p ++ [.unlock l])) := by
  intro q hq
  refine ⟨hl, ?_⟩
  rw [List.append_eq, List.append_assoc]
  refine hp _ ⟨Finset.mem_insert_self l hs, ?_⟩
  rw [Finset.erase_insert hl]
  exact hq

theorem block_nil : Block i sv hs [] := fun _ hq => hq

theorem block_frames (h : .pmm ∉ hs) : Block i sv hs framesProg := block_nil.locked h

theorem block_query (h : .vmm ∉ hs) : Block i sv hs queryProg := block_nil.locked h

theorem block_update {pages : List Bool} (hv : .vmm ∉ hs) (hp : .pmm ∉ hs) :
    Block i sv hs (updateProg pages) := by
  have hpmm : KLock.pmm ∉ insert KLock.vmm hs := by
    rw [Finset.mem_insert]
    exact fun h => h.elim (fun h => by cases h) hp
  have hbody : Block i sv (insert .vmm hs)
      ((pages.flatMap fun b => if b then framesProg else []) ++ [.flush]) := by
    refine Block.append (Block.flatMap fun b => ?_) fun q hq => ⟨Finset.mem_insert_self _ _, hq⟩
    split_ifs
    · exact block_frames hpmm
    · exact block_nil
  have h := hbody.locked hv
  rwa [List.append_assoc] at h

/-- An `InterruptSpinLockGuard` around a block. -/
theorem Block.guarded {l : KLock} {p : List LockInstr} (hl : l ∉ hs)
    (hp : Block false (i :: sv) (insert l hs) p) :
    Block i sv hs (.cli :: .lock l :: (p ++ [.unlock l, .restore])) := by
  intro q hq
  have h := hp.locked hl (.restore :: q) (by rw [Sound]; exact hq)
  rw [List.cons_append, List.append_assoc] at h
  show Sound false (i :: sv) hs (.lock l :: (p ++ [.unlock l, .restore] ++ q))
  rw [List.append_assoc]
  exact h

theorem block_heap {parts : List HeapPart} (hh : .heap ∉ hs) (hv : .vmm ∉ hs) (hp : .pmm ∉ hs) :
    Block i sv hs (heapProg parts) := by
  refine Block.guarded hh (Block.flatMap fun part => ?_)
  have hv' : KLock.vmm ∉ insert KLock.heap hs := by
    rw [Finset.mem_insert]
    exact fun h => h.elim (fun h => by cases h) hv
  have hp' : KLock.pmm ∉ insert KLock.heap hs := by
    rw [Finset.mem_insert]
    exact fun h => h.elim (fun h => by cases h) hp
  cases part with
  | expand pages => exact (block_frames hp').append (block_update hv' hp')
  | contract pages => exact (block_query hv').append (block_update hv' hp')

/-- **Operations are sound.** From a task that holds nothing. -/
theorem sound_op (op : KernelOp) : Sound true [] ∅ op.prog := by
  have hblock : Block true [] ∅ op.prog := by
    cases op with
    | frames => exact block_frames (by decide)
    | query => exact block_query (by decide)
    | update pages => exact block_update (by decide) (by decide)
    | heap parts => exact block_heap (by decide) (by decide) (by decide)
    | linker parts =>
      refine Block.guarded (by decide) (Block.flatMap fun part => ?_)
      cases part with
      | frames => exact block_frames (by decide)
      | update pages => exact block_update (by decide) (by decide)
      | heap parts => exact block_heap (by decide) (by decide) (by decide)
  have h := hblock [] ⟨rfl, rfl, rfl⟩
  rwa [List.append_nil] at h

theorem sound_panic {n : ℕ} (h : n = 0 ∨ .vmm ∉ hs) : Sound i sv hs (panicProg n) := by
  induction n with
  | zero => trivial
  | succ n ih =>
    have hv : KLock.vmm ∉ hs := h.resolve_left (Nat.succ_ne_zero n)
    exact block_query hv _ (ih (Or.inr hv))

end

theorem locksOf_panic {n : ℕ} {l : KLock} (h : l ∈ locksOf (panicProg n)) : n ≠ 0 ∧ l = .vmm := by
  induction n with
  | zero => cases h
  | succ n ih =>
    refine ⟨Nat.succ_ne_zero n, ?_⟩
    rcases List.mem_cons.1 (show l ∈ .vmm :: locksOf (panicProg n) from h) with h | h
    · exact h
    · exact (ih h).2

namespace LockState

variable {m : LockMachine} {s s' : LockState}

theorem heldUp_eq_false {c : ℕ} {l : KLock} : s.heldUp m c l = false ↔
    ∀ h, s.holder l = some h → (m.core h = c → h = s.running c) ∧
      ((s.task h).waiting = true → s.awaiting c = false) := by
  unfold heldUp
  cases hl : s.holder l with
  | none => simp
  | some h =>
    rw [Option.any_some, Bool.or_eq_false_iff]
    simp only [Bool.and_eq_false_iff, beq_eq_false_iff_ne, bne_eq_false_iff_eq, Option.some.injEq,
      forall_eq']
    cases (s.task h).waiting <;> cases s.awaiting c <;> simp <;> tauto

/-! ## The invariant -/

structure Inv (m : LockMachine) (s : LockState) : Prop where
  core : ∀ c, m.core (s.running c) = c
  parked : ∀ t, s.running (m.core t) ≠ t → (s.task t).ints = true
  sound : ∀ t, Sound (s.task t).ints (s.task t).saved (s.held t) (s.task t).prog
  waiting : ∀ t, (s.task t).waiting = true → ∃ p, (s.task t).prog = .flush :: p
  /-- With interrupts off, no lock that is still to be taken is held up. -/
  clear : ∀ c, (s.cur c).ints = false → ∀ l ∈ locksOf (s.cur c).prog, s.heldUp m c l = false

theorem inv_start (m : LockMachine) : Inv m (start m) where
  core := m.core_first
  parked := fun _ _ => rfl
  sound := fun t => ⟨rfl, rfl, by simp [held, start]⟩
  waiting := fun _ h => by cases h
  clear := fun _ h => by cases h

theorem Inv.running_ne (hI : Inv m s) {b c : ℕ} (h : b ≠ c) : s.running b ≠ s.running c := by
  intro he
  apply h
  rw [← hI.core b, ← hI.core c, he]

theorem Inv.not_wedged (hI : Inv m s) (c : ℕ) : ¬ s.Wedged m c := by
  rintro ⟨l, p, h, hp, hl, hself | ⟨hints, hup⟩⟩
  · subst hself
    have hs := hI.sound (s.running c)
    rw [show (s.task (s.running c)).prog = .lock l :: p from hp] at hs
    exact hs.1 (mem_held.2 hl)
  · have hmem : l ∈ locksOf (s.cur c).prog := by rw [hp]; exact List.mem_cons_self ..
    obtain ⟨hcore, hwait⟩ := heldUp_eq_false.1 (hI.clear c hints l hmem) h hl
    rcases hup with ⟨h1, h2⟩ | ⟨h1, h2⟩
    · exact h2 (hcore h1)
    · rw [hwait h1] at h2
      cases h2

/-! ## One step -/

/-- A step of the running task of one core: what is to be shown for it, and for the locks on the
other cores. -/
theorem Inv.advance (hI : Inv m s) {c : ℕ} {k : KTask} (hrun : s'.running = s.running)
    (htask : s'.task = Function.update s.task (s.running c) k)
    (hheld : ∀ t ≠ s.running c, s'.held t = s.held t)
    (hsound : Sound k.ints k.saved (s'.held (s.running c)) k.prog)
    (hwait : k.waiting = true → ∃ p, k.prog = .flush :: p)
    (hclear : k.ints = false → ∀ l ∈ locksOf k.prog, s'.heldUp m c l = false)
    (hothers : ∀ b ≠ c, (s.cur b).ints = false → ∀ l ∈ locksOf (s.cur b).prog,
      s'.heldUp m b l = false) : Inv m s' := by
  have hself : s'.task (s.running c) = k := by rw [htask, Function.update_self]
  have hother : ∀ t ≠ s.running c, s'.task t = s.task t := fun t ht => by
    rw [htask, Function.update_of_ne ht]
  refine ⟨fun b => by rw [hrun]; exact hI.core b, fun t ht => ?_, fun t => ?_, fun t ht => ?_,
    fun b => ?_⟩
  · rw [hrun] at ht
    have hne : t ≠ s.running c := by
      rintro rfl
      rw [hI.core c] at ht
      exact ht rfl
    rw [hother t hne]
    exact hI.parked t ht
  · by_cases ht : t = s.running c
    · rw [ht, hself]; exact hsound
    · rw [hother t ht, hheld t ht]; exact hI.sound t
  · by_cases htc : t = s.running c
    · rw [htc, hself] at ht ⊢
      exact hwait ht
    · rw [hother t htc] at ht ⊢
      exact hI.waiting t ht
  · unfold cur
    rw [hrun]
    by_cases hb : b = c
    · rw [hb, hself]; exact hclear
    · rw [hother _ (hI.running_ne hb)]; exact hothers b hb

/-- Locks held up after a step that neither takes a lock nor starts a shootdown were so before. -/
theorem heldUp_of_step {t b : ℕ} {l : KLock} {k : KTask} (hrun : s'.running = s.running)
    (htask : s'.task = Function.update s.task t k)
    (hk : k.waiting = true → (s.task t).waiting = true)
    (hholder : ∀ h, s'.holder l = some h → s.holder l = some h) (hawait : s'.awaiting = s.awaiting)
    (h : s.heldUp m b l = false) : s'.heldUp m b l = false := by
  rw [heldUp_eq_false] at h ⊢
  intro u hu
  obtain ⟨h1, h2⟩ := h u (hholder u hu)
  rw [hrun, hawait]
  refine ⟨h1, fun hw => h2 ?_⟩
  rw [htask] at hw
  by_cases hut : u = t
  · rw [hut, Function.update_self] at hw
    exact hut ▸ hk hw
  · rwa [Function.update_of_ne hut] at hw

/-- A step that changes nothing but the task that takes it. -/
theorem Inv.advance_task (hI : Inv m s) {c : ℕ} {k : KTask}
    (hsound : Sound k.ints k.saved (s.held (s.running c)) k.prog) (hwait : k.waiting = false)
    (hclear : k.ints = false → ∀ l ∈ locksOf k.prog, s.heldUp m c l = false) :
    Inv m (s.setTask (s.running c) k) := by
  have hup : ∀ b l, s.heldUp m b l = false → (s.setTask (s.running c) k).heldUp m b l = false :=
    fun b l h => heldUp_of_step (s := s) rfl rfl (fun hk => by rw [hwait] at hk; cases hk)
      (fun _ h => h) rfl h
  refine hI.advance (k := k) rfl rfl (fun _ _ => rfl) hsound
    (fun hk => by rw [hwait] at hk; cases hk) (fun hi l hl => hup c l (hclear hi l hl)) ?_
  exact fun b _ hi l hl => hup b l (hI.clear b hi l hl)

theorem Inv.not_waiting (hI : Inv m s) {c : ℕ} (h : ∀ p, (s.cur c).prog ≠ .flush :: p) :
    (s.cur c).waiting = false := by
  cases hw : (s.cur c).waiting with
  | false => rfl
  | true =>
    obtain ⟨p, hp⟩ := hI.waiting _ hw
    exact absurd hp (h p)

theorem inv_cli {c : ℕ} {p : List LockInstr} (hI : Inv m s) (hp : (s.cur c).prog = .cli :: p)
    (hC : s.orderly m (.exec c) = true) :
    Inv m (s.setTask (s.running c)
      { s.cur c with prog := p, ints := false, saved := (s.cur c).ints :: (s.cur c).saved }) := by
  have hs := hI.sound (s.running c)
  rw [show (s.task (s.running c)).prog = .cli :: p from hp] at hs
  refine hI.advance_task hs (hI.not_waiting (by rw [hp]; exact fun _ h => by cases h)) ?_
  intro _ l hl
  unfold orderly at hC
  simp only [hp] at hC
  cases hi : (s.cur c).ints with
  | false => exact hI.clear c hi l (by rw [hp]; exact hl)
  | true =>
    rw [hi] at hC
    exact Bool.not_eq_true' _ ▸ List.all_eq_true.1 hC l hl

theorem inv_restore {c : ℕ} {b : Bool} {p : List LockInstr} {sv : List Bool} (hI : Inv m s)
    (hp : (s.cur c).prog = .restore :: p) (hsv : (s.cur c).saved = b :: sv) :
    Inv m (s.setTask (s.running c)
      { s.cur c with prog := p, ints := (s.cur c).ints || b, saved := sv }) := by
  have hs := hI.sound (s.running c)
  rw [show (s.task (s.running c)).prog = .restore :: p from hp,
    show (s.task (s.running c)).saved = b :: sv from hsv] at hs
  refine hI.advance_task hs (hI.not_waiting (by rw [hp]; exact fun _ h => by cases h)) ?_
  intro hi l hl
  exact hI.clear c (Bool.or_eq_false_iff.1 hi).1 l (by rw [hp]; exact hl)

theorem held_setHolder {l : KLock} {o : Option ℕ} {t : ℕ} (h : s.holder l ≠ some t)
    (ho : o ≠ some t) : (s.setHolder l o).held t = s.held t := by
  ext l'
  rw [mem_held, mem_held, setHolder_holder]
  by_cases hl : l' = l
  · subst hl
    rw [Function.update_self]
    exact iff_of_false ho h
  · rw [Function.update_of_ne hl]

theorem inv_lock {c : ℕ} {l : KLock} {p : List LockInstr} (hI : Inv m s)
    (hp : (s.cur c).prog = .lock l :: p) (hfree : s.holder l = none) :
    Inv m ((s.setTask (s.running c) { s.cur c with prog := p }).setHolder l
      (some (s.running c))) := by
  have hs := hI.sound (s.running c)
  rw [show (s.task (s.running c)).prog = .lock l :: p from hp] at hs
  have hw := hI.not_waiting (c := c) (by rw [hp]; exact fun _ h => by cases h)
  -- the new holder runs, and does not wait for anybody
  have hup : ∀ b l', s.heldUp m b l' = false →
      ((s.setTask (s.running c) { s.cur c with prog := p }).setHolder l
        (some (s.running c))).heldUp m b l' = false := by
    intro b l' h
    by_cases hl : l' = l
    · subst hl
      rw [heldUp_eq_false]
      intro u hu
      rw [setHolder_holder, Function.update_self] at hu
      cases hu
      refine ⟨fun hb => ?_, fun hk => ?_⟩
      · rw [hI.core c] at hb
        rw [← hb]
        rfl
      · rw [setHolder_task, setTask_task, Function.update_self] at hk
        rw [show (s.cur c).waiting = true from hk] at hw
        cases hw
    · refine heldUp_of_step (s := s) rfl rfl (fun hk => hk) (fun u hu => ?_) rfl h
      rwa [setHolder_holder, Function.update_of_ne hl] at hu
  refine hI.advance (k := { s.cur c with prog := p }) rfl rfl (fun t ht => ?_) ?_ (fun hk => ?_)
    ?_ ?_
  · rw [held_setHolder (by rw [setTask_holder, hfree]; exact fun h => by cases h)
      (fun h => ht (Option.some.inj h).symm)]
    rfl
  · have heq : ((s.setTask (s.running c) { s.cur c with prog := p }).setHolder l
        (some (s.running c))).held (s.running c) = insert l (s.held (s.running c)) := by
      ext l'
      rw [Finset.mem_insert, mem_held, mem_held]
      rw [setHolder_holder, setTask_holder]
      by_cases hl : l' = l
      · subst hl; simp
      · simp [hl]
    rw [heq]
    exact hs.2
  · rw [show (s.cur c).waiting = true from hk] at hw; cases hw
  · exact fun hi l' hl => hup c l' (hI.clear c hi l' (by rw [hp]; exact List.mem_cons_of_mem _ hl))
  · exact fun b _ hi l' hl => hup b l' (hI.clear b hi l' hl)

theorem inv_unlock {c : ℕ} {l : KLock} {p : List LockInstr} (hI : Inv m s)
    (hp : (s.cur c).prog = .unlock l :: p) :
    Inv m ((s.setTask (s.running c) { s.cur c with prog := p }).setHolder l none) := by
  have hs := hI.sound (s.running c)
  rw [show (s.task (s.running c)).prog = .unlock l :: p from hp] at hs
  have hw := hI.not_waiting (c := c) (by rw [hp]; exact fun _ h => by cases h)
  have hmine : s.holder l = some (s.running c) := mem_held.1 hs.1
  have hup : ∀ b l', s.heldUp m b l' = false →
      ((s.setTask (s.running c) { s.cur c with prog := p }).setHolder l none).heldUp m b l' =
        false := by
    intro b l' h
    refine heldUp_of_step (s := s) rfl rfl (fun hk => hk) (fun u hu => ?_) rfl h
    rw [setHolder_holder] at hu
    by_cases hl : l' = l
    · rw [hl, Function.update_self] at hu; cases hu
    · rwa [Function.update_of_ne hl] at hu
  refine hI.advance (k := { s.cur c with prog := p }) rfl rfl (fun t ht => ?_) ?_ (fun hk => ?_)
    ?_ ?_
  · rw [held_setHolder (s := s.setTask (s.running c) { s.cur c with prog := p })
      (fun h => ht (Option.some.inj (hmine.symm.trans h)).symm) (fun h => by cases h)]
    rfl
  · have heq : ((s.setTask (s.running c) { s.cur c with prog := p }).setHolder l none).held
        (s.running c) = (s.held (s.running c)).erase l := by
      ext l'
      rw [Finset.mem_erase, mem_held, mem_held]
      rw [setHolder_holder, setTask_holder]
      by_cases hl : l' = l
      · subst hl; simp
      · simp [hl]
    rw [heq]
    exact hs.2
  · rw [show (s.cur c).waiting = true from hk] at hw; cases hw
  · exact fun hi l' hl => hup c l' (hI.clear c hi l' (by rw [hp]; exact hl))
  · exact fun b _ hi l' hl => hup b l' (hI.clear b hi l' hl)

/-- The start of a shootdown. There is no other: the task has the lock of the page tables. -/
theorem inv_flush {c : ℕ} {p : List LockInstr} (hI : Inv m s) (hp : (s.cur c).prog = .flush :: p)
    (hw : (s.cur c).waiting = false) (hC : s.orderly m (.exec c) = true) :
    Inv m { s.setTask (s.running c) { s.cur c with waiting := true } with
      awaiting := fun b => decide (b < m.count) && m.initialized b && b != c } := by
  have hs := hI.sound (s.running c)
  rw [show (s.task (s.running c)).prog = .flush :: p from hp] at hs
  have hvmm : s.holder .vmm = some (s.running c) := mem_held.1 hs.1
  have honly : ∀ u, u ≠ s.running c → (s.task u).waiting = false := by
    intro u hu
    cases huw : (s.task u).waiting with
    | false => rfl
    | true =>
      obtain ⟨q, hq⟩ := hI.waiting u huw
      have hsu := hI.sound u
      rw [hq] at hsu
      have := mem_held.1 hsu.1
      rw [hvmm] at this
      exact absurd (Option.some.inj this).symm hu
  have hup : ∀ b l, s.heldUp m b l = false →
      (b ≠ c → b < m.count → m.initialized b = true → s.holder l ≠ some (s.running c)) →
      ({ s.setTask (s.running c) { s.cur c with waiting := true } with
        awaiting := fun b => decide (b < m.count) && m.initialized b && b != c } :
        LockState).heldUp m b l = false := by
    intro b l h hmine
    rw [heldUp_eq_false] at h ⊢
    intro u hu
    refine ⟨(h u hu).1, fun huw => ?_⟩
    by_cases huc : u = s.running c
    · subst huc
      cases hb : decide (b < m.count) && m.initialized b && b != c with
      | false => exact hb
      | true =>
        rw [Bool.and_eq_true, Bool.and_eq_true, decide_eq_true_eq, bne_iff_ne] at hb
        exact absurd hu (hmine hb.2 hb.1.1 hb.1.2)
    · unfold setTask at huw
      dsimp only at huw
      rw [Function.update_of_ne huc, honly u huc] at huw
      cases huw
  refine hI.advance (k := { s.cur c with waiting := true }) rfl rfl (fun _ _ => rfl) ?_
    (fun _ => ⟨p, hp⟩) ?_ ?_
  · exact hI.sound (s.running c)
  · intro hi l hl
    exact hup c l (hI.clear c hi l hl) (fun h => absurd rfl h)
  · intro b hb hi l hl
    refine hup b l (hI.clear b hi l hl) (fun _ hlt hinit => ?_)
    unfold orderly at hC
    simp only [hp, hw, Bool.false_or] at hC
    have hall := List.all_eq_true.1 hC b (List.mem_range.2 hlt)
    rw [hinit, hi, beq_false_of_ne hb] at hall
    exact bne_iff_ne.1 (List.all_eq_true.1 hall l hl)

theorem inv_exec {c : ℕ} (hI : Inv m s) (hC : s.orderly m (.exec c) = true)
    (h : s.exec m c = some s') : Inv m s' := by
  unfold exec at h
  dsimp only at h
  cases hp : (s.cur c).prog with
  | nil => rw [hp] at h; cases h
  | cons i p =>
    rw [hp] at h
    cases i with
    | cli => cases h; exact inv_cli hI hp hC
    | restore =>
      dsimp only at h
      cases hsv : (s.cur c).saved with
      | nil => rw [hsv] at h; cases h
      | cons b sv =>
        rw [hsv] at h
        cases h
        exact inv_restore hI hp hsv
    | lock l =>
      cases hl : s.holder l with
      | some u =>
        dsimp only at h
        rw [hl] at h
        cases h
        exact hI
      | none =>
        dsimp only at h
        rw [hl] at h
        cases h
        exact inv_lock hI hp hl
    | unlock l => cases h; exact inv_unlock hI hp
    | flush =>
      dsimp only at h
      cases hw : (s.cur c).waiting with
      | false =>
        rw [hw] at h
        cases h
        have hinv := inv_flush hI hp hw hC
        dsimp only at hinv
        rw [hp] at hinv
        exact hinv
      | true =>
        rw [hw, if_pos rfl] at h
        split_ifs at h
        · cases h; exact hI
        · cases h
          have hs := hI.sound (s.running c)
          rw [show (s.task (s.running c)).prog = .flush :: p from hp] at hs
          exact hI.advance_task hs.2 rfl fun hi l hl => hI.clear c hi l (by rw [hp]; exact hl)
    | halt => cases h; exact hI

/-- A task that calls an operation holds nothing and has interrupts on. -/
theorem inv_call {c : ℕ} {op : KernelOp} (hI : Inv m s) (h : s.Step m (.call c op) s') :
    Inv m s' := by
  unfold Step step at h
  dsimp only at h
  split_ifs at h with hp
  cases h
  have hs := hI.sound (s.running c)
  rw [show (s.task (s.running c)).prog = [] from hp] at hs
  obtain ⟨hi, hsv, hheld⟩ := hs
  refine hI.advance_task ?_ (hI.not_waiting (by rw [hp]; exact fun _ h => by cases h)) ?_
  · show Sound (s.task (s.running c)).ints (s.task (s.running c)).saved _ op.prog
    rw [hi, hsv, hheld]
    exact sound_op op
  · intro hk
    rw [show (s.cur c).ints = true from hi] at hk
    cases hk

theorem inv_panic {c n : ℕ} {exception : Bool} (hI : Inv m s)
    (hC : s.orderly m (.panic c n exception) = true) (h : s.Step m (.panic c n exception) s') :
    Inv m s' := by
  cases h
  unfold orderly at hC
  simp only [Bool.or_eq_true, Bool.and_eq_true, beq_iff_eq, bne_iff_ne, Bool.not_eq_true'] at hC
  refine hI.advance_task (sound_panic ?_) rfl ?_
  · rcases hC with h | h
    · exact Or.inl h
    · exact Or.inr fun hm => h.1 (mem_held.1 hm)
  · intro hi l hl
    obtain ⟨hn, rfl⟩ := locksOf_panic hl
    have hup := (hC.resolve_left hn).2
    rcases hup with ⟨h1, h2⟩ | h2
    · dsimp only at hi
      rw [h1, h2] at hi
      cases hi
    · exact h2

/-- Only a core with interrupts on switches, and every task it can switch to has them on. -/
theorem inv_tick {c t : ℕ} (hI : Inv m s) (h : s.Step m (.tick c t) s') : Inv m s' := by
  unfold Step step at h
  dsimp only at h
  split_ifs at h with hc
  obtain ⟨hi, ht⟩ := hc
  cases h
  have hon : (s.task t).ints = true := by
    by_cases htr : s.running c = t
    · rw [← htr]; exact hi
    · exact hI.parked t (by rw [ht]; exact htr)
  refine ⟨fun b => ?_, fun u hu => ?_, hI.sound, hI.waiting, fun b hb l hl => ?_⟩
  · dsimp only
    by_cases hbc : b = c
    · rw [hbc, Function.update_self]; exact ht
    · rw [Function.update_of_ne hbc]; exact hI.core b
  · dsimp only at hu ⊢
    by_cases huc : m.core u = c
    · by_cases hur : s.running c = u
      · rw [← hur]; exact hi
      · exact hI.parked u (by rw [huc]; exact hur)
    · rw [Function.update_of_ne huc] at hu
      exact hI.parked u hu
  · unfold cur at hb hl
    dsimp only at hb hl
    by_cases hbc : b = c
    · rw [hbc, Function.update_self, hon] at hb
      cases hb
    · rw [Function.update_of_ne hbc] at hb hl
      have := heldUp_eq_false.1 (hI.clear b hb l hl)
      rw [heldUp_eq_false]
      dsimp only
      rwa [Function.update_of_ne hbc]

theorem inv_ack {c : ℕ} (hI : Inv m s) (h : s.Step m (.ack c) s') : Inv m s' := by
  unfold Step step at h
  dsimp only at h
  split_ifs at h with hc
  cases h
  refine ⟨hI.core, hI.parked, hI.sound, hI.waiting, fun b hb l hl => ?_⟩
  have hclear := heldUp_eq_false.1 (hI.clear b hb l hl)
  rw [heldUp_eq_false]
  intro u hu
  refine ⟨(hclear u hu).1, fun hw => ?_⟩
  dsimp only
  by_cases hbc : b = c
  · rw [hbc, Function.update_self]
  · rw [Function.update_of_ne hbc]
    exact (hclear u hu).2 hw

/-- **One step.** Every step that follows the discipline keeps the invariant. -/
theorem inv_step {a : LockAct} (hI : Inv m s) (hC : s.orderly m a = true) (h : s.Step m a s') :
    Inv m s' := by
  cases a with
  | call c op => exact inv_call hI h
  | exec c => exact inv_exec hI hC h
  | tick c t => exact inv_tick hI h
  | ack c => exact inv_ack hI h
  | panic c n exception => exact inv_panic hI hC h

end LockState

open LockState in
/-- **No wedged core.** For every number of cores and tasks, every choice the operations make and
every interleaving in which each step follows the discipline, no reachable state has a wedged
core. -/
theorem never_wedged (m : LockMachine) (as : List LockAct)
    (h : Along (LockState.Step m) (fun s a => s.orderly m a = true) (start m) as) (s : LockState)
    (hrun : Run (LockState.Step m) (start m) as s) (c : ℕ) : ¬ s.Wedged m c :=
  (hrun.invariant (fun _ _ _ hI hC hs => inv_step hI hC hs) h (inv_start m)).not_wedged c

/-- Two cores with two tasks each. -/
def LockMachine.two : LockMachine where
  count := 2
  initialized := fun _ => true
  core := fun t => t / 2
  first := fun c => 2 * c
  core_first := fun c => by omega

/-- Task `0` is preempted in `pmm::alloc_frames`, goes on and grows the heap; core `1` answers the
shootdown. -/
def growHeapRun : List LockAct :=
  [.call 0 .frames, .exec 0, .tick 0 1, .call 0 .query, .exec 0, .exec 0, .tick 0 0, .exec 0,
    .call 0 (.heap [.expand [true]])] ++ List.replicate 8 (.exec 0) ++ [.ack 1, .exec 0, .exec 0]

open LockState in
theorem never_wedged_growHeapRun : ∃ s, Run (LockState.Step .two) (start .two) growHeapRun s ∧
    (s.cur 0).prog = [.unlock .heap, .restore] ∧ ¬ s.Wedged .two 0 ∧ ¬ s.Wedged .two 1 := by
  have hrun : (List.foldlM (LockState.step .two) (start .two) growHeapRun).any
      (fun s => decide ((s.cur 0).prog = [.unlock .heap, .restore])) = true := by
    decide +kernel
  obtain ⟨s, hs, hp⟩ := (Option.any_eq_true _ _).1 hrun
  have hr : Run (LockState.Step .two) (start .two) growHeapRun s :=
    run_of_foldlM (fun _ _ _ => Iff.rfl) hs
  have hC : Along (LockState.Step .two) (fun s a => s.orderly .two a = true) (start .two)
      growHeapRun :=
    along_of_check (f := LockState.step .two) (fun _ _ _ => Iff.rfl) (by decide +kernel)
  exact ⟨s, hr, of_decide_eq_true hp, never_wedged .two _ hC s hr 0, never_wedged .two _ hC s hr 1⟩

open LockState in
/-- Task `0` is preempted in `pmm::alloc_frames`; its core goes on with task `1`, which allocates
from the heap. The heap turns interrupts off, has to grow, and spins on the lock of `pmm`. -/
theorem heap_wedged_by_preempted_frames : ∃ s, Run (LockState.Step .two) (start .two)
    [.call 0 .frames, .exec 0, .tick 0 1, .call 0 (.heap [.expand [true]]), .exec 0, .exec 0] s ∧
    s.Wedged .two 0 := by
  have hrun : (List.foldlM (LockState.step .two) (start .two)
      [.call 0 .frames, .exec 0, .tick 0 1, .call 0 (.heap [.expand [true]]), .exec 0,
        .exec 0]).any
      (fun s => decide ((s.cur 0).prog = (heapProg [.expand [true]]).drop 2 ∧
        s.holder .pmm = some 0 ∧ (s.cur 0).ints = false ∧ s.running 0 = 1)) = true := by
    decide +kernel
  obtain ⟨s, hs, hp⟩ := (Option.any_eq_true _ _).1 hrun
  obtain ⟨hprog, hholder, hints, hrunning⟩ := of_decide_eq_true hp
  refine ⟨s, run_of_foldlM (fun _ _ _ => Iff.rfl) hs, .pmm, _, 0, hprog, hholder,
    Or.inr ⟨hints, ?_⟩⟩
  exact Or.inl ⟨rfl, by rw [hrunning]; decide⟩

end Ospp
