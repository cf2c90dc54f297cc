import Ospp.Klib.StaticArray

/-!
# The scheduler

`sched::Task`, `sched::Scheduler::create_task` and `sched::Scheduler::schedule`. The interrupted
frame is passed to `schedule` by value together with its address (`stack_ptr` records the address
past it) and the frame written back over it, if any, is returned: `schedule` copies a whole
`InterruptFrame` either way. `Int/ContextSwitch.lean` places the frame on a stack.

The slots of the task table are never released, so a slot number names one task for good.
-/

namespace Ospp

/-- `idt::InterruptFrame`: the words pushed by `context_switch`, then `BaseInterruptFrame`. -/
structure InterruptFrame where
  ds : UInt32
  es : UInt32
  fs : UInt32
  gs : UInt32
  edi : UInt32
  esi : UInt32
  ebp : UInt32
  esp : UInt32
  ebx : UInt32
  edx : UInt32
  ecx : UInt32
  eax : UInt32
  intNo : UInt32
  errCode : UInt32
  eip : UInt32
  cs : UInt32
  eflags : UInt32
  -- pushed by the processor only on a change of privilege
  userEsp : UInt32
  userSs : UInt32
  deriving DecidableEq, Repr

/-- `sizeof(InterruptFrame)`: nineteen words. -/
def sizeofInterruptFrame : ℕ := 76

inductive TaskState where
  | ready
  | running
  | blocked
  | terminated
  deriving DecidableEq, Repr

structure Task where
  id : ℕ
  ctx : InterruptFrame
  stackPtr : ℕ
  stack : ℕ
  ownStack : Bool
  state : TaskState
  name : String
  deriving DecidableEq, Repr

/-- The addresses the linker fixes: `Task::_crt_task_entry`, `dummy_func` and the boot `stack`. -/
structure Symbols where
  crtTaskEntry : UInt32
  dummyFunc : UInt32
  stack : ℕ

/-- `sizeof(smp::BaseCoreStack)`. -/
def coreStackSize : ℕ := 4096

/-- The frame `Task::Task` builds for a task with a stack of its own. `user_esp` and `user_ss` are
not initialised: `stale` is what the storage held. -/
def Task.initialFrame (sym : Symbols) (stackPtr : ℕ) (stale : UInt32 × UInt32) : InterruptFrame where
  ds := 0x10
  es := 0x10
  fs := 0x10
  gs := 0x10
  edi := 0
  esi := 0
  ebp := 0
  esp := 0
  ebx := UInt32.ofNat stackPtr
  edx := 0
  ecx := 0
  eax := sym.dummyFunc
  intNo := 0
  errCode := 0
  eip := sym.crtTaskEntry
  cs := 0x8
  eflags := 0x202
  userEsp := stale.1
  userSs := stale.2

/-- `Task(id, name, nullptr)` on the new stack at `stackBase`. -/
def Task.new (sym : Symbols) (id : ℕ) (name : String) (stackBase : ℕ) (stale : UInt32 × UInt32) :
    Task where
  id := id
  ctx := Task.initialFrame sym (stackBase + coreStackSize) stale
  stackPtr := stackBase + coreStackSize
  stack := stackBase
  ownStack := true
  state := .ready
  name := name

/-- `Task(id, "kernel", &stack)`, whose frame `schedule` overwrites at once with `ctx`. -/
def Task.kernel (sym : Symbols) (id : ℕ) (ctx : InterruptFrame) : Task where
  id := id
  ctx := ctx
  stackPtr := sym.stack + coreStackSize
  stack := sym.stack
  ownStack := false
  state := .ready
  name := "kernel"

/-- The marker a finished task leaves in its registers (`Task::_die`). -/
def diedIn (f : InterruptFrame) : Bool := f.eax == 0xDEADDEAD && f.ebp == 0

/-- What `schedule` stores in the task it interrupts. -/
def Task.save (ctx : ℕ) (f : InterruptFrame) (t : Task) : Task :=
  { t with
    stackPtr := Word32.add ctx sizeofInterruptFrame
    ctx := f
    state := if diedIn f then .terminated else .ready }

/-- `task.ctx.eax = entry_point`. -/
def Task.setEntry (entryPoint : UInt32) (t : Task) : Task :=
  { t with ctx := { t.ctx with eax := entryPoint } }

/-- `StaticArray<Task, 256>::capacity()`. -/
def taskCapacity : ℕ := 256

structure Scheduler where
  tasks : StaticArray Task taskCapacity
  currentTaskIndex : ℕ
  nextTaskId : ℕ
  initialized : Bool

namespace Scheduler

/-- The task in a slot is `READY`. -/
def isReady (s : Scheduler) (i : ℕ) : Bool :=
  match s.tasks.ptr i with
  | some t => t.state == .ready
  | none => false

/-- The stored frame of the task in a slot. -/
def ctxOf (s : Scheduler) (i : ℕ) : Option InterruptFrame := (s.tasks.ptr i).map Task.ctx

/-- `create_task`; the slot filled is returned in place of the reference to the task. -/
def createTask (sym : Symbols) (s : Scheduler) (name : String) (entryPoint : UInt32)
    (stackBase : ℕ) (stale : UInt32 × UInt32) : K (Scheduler × ℕ) := do
  let (tasks, i) ← s.tasks.emplace (Task.new sym s.nextTaskId name stackBase stale)
  return ({ s with
    tasks := tasks.modify i (Task.setEntry entryPoint),
    nextTaskId := Word32.add s.nextTaskId 1 }, i)

/-- The constructor: the "idle" task is created, then the scheduler is marked initialized. -/
def construct (sym : Symbols) (idleEntry : UInt32) (stackBase : ℕ) (stale : UInt32 × UInt32) :
    K Scheduler := do
  let s : Scheduler := ⟨.empty, 0, 1, false⟩
  let (s, _) ← s.createTask sym "idle" idleEntry stackBase stale
  return { s with initialized := true }

/-- The first half of `schedule`: the interrupted frame is saved. -/
def saveCurrent (sym : Symbols) (s : Scheduler) (ctx : ℕ) (f : InterruptFrame) : K Scheduler :=
  if s.tasks.liveCount ≤ 1 then do
    -- only "idle" exists: the frame is the boot context, which becomes the "kernel" task
    let (tasks, _) ← s.tasks.emplace (Task.kernel sym s.nextTaskId f)
    return { s with
      tasks := tasks, nextTaskId := Word32.add s.nextTaskId 1, currentTaskIndex := 1 }
  else
    match s.tasks.ptr s.currentTaskIndex with
    | none => .ok s
    | some current =>
      if current.state = .running then
        .ok { s with tasks := s.tasks.modify s.currentTaskIndex (Task.save ctx f) }
      else .ok s

/-- The `do … while` search: slots are tried cyclically after `cur`, up to `start` itself. -/
def searchReady (ready : ℕ → Bool) (start : ℕ) : ℕ → ℕ → Option ℕ
  | 0, _ => none
  | fuel + 1, cur =>
    let cur := (cur + 1) % taskCapacity
    if ready cur then some cur
    else if cur = start then none
    else searchReady ready start fuel cur

/-- The slot the search selects. The walk is back at `start` after `taskCapacity` steps. -/
def nextReady (s : Scheduler) : Option ℕ :=
  searchReady s.isReady s.currentTaskIndex taskCapacity s.currentTaskIndex

/-- Mark the task in a slot `RUNNING`. -/
def setRunning (s : Scheduler) (i : ℕ) : Scheduler :=
  { s with currentTaskIndex := i, tasks := s.tasks.modify i fun t => { t with state := .running } }

/-- The second half of `schedule`: the next task is selected and its frame, if one is found, is
returned to be copied over the interrupted one. -/
def selectNext (s : Scheduler) : Scheduler × Option InterruptFrame :=
  match s.nextReady with
  | some i => (s.setRunning i, s.ctxOf i)
  -- the walk has come back to the slot it started from
  | none => (s.setRunning s.currentTaskIndex, none)

/-- `schedule`: the new state, and the frame written back over the interrupted one (`none` when
nothing is written). -/
def schedule (sym : Symbols) (s : Scheduler) (ctx : ℕ) (f : InterruptFrame) :
    K (Scheduler × Option InterruptFrame) :=
  if !s.initialized || s.tasks.liveCount == 0 then .ok (s, none)
  else do
    let s ← s.saveCurrent sym ctx f
    return s.selectNext

/-! ## What one step can do -/

theorem isReady_iff {s : Scheduler} {i : ℕ} :
    s.isReady i = true ↔ ∃ t, s.tasks.ptr i = some t ∧ t.state = .ready := by
  unfold isReady
  cases h : s.tasks.ptr i with
  | none => simp
  | some t => simp

theorem searchReady_ready {ready : ℕ → Bool} {start : ℕ} :
    ∀ {fuel cur i : ℕ}, searchReady ready start fuel cur = some i → ready i = true := by
  intro fuel
  induction fuel with
  | zero => intro cur i h; cases h
  | succ fuel ih =>
    intro cur i h
    simp only [searchReady] at h
    split_ifs at h with h1 h2
    · cases h; exact h1
    · exact ih h

theorem nextReady_ready {s : Scheduler} {i : ℕ} (h : s.nextReady = some i) : s.isReady i = true :=
  searchReady_ready h

@[simp] theorem ptr_setRunning (s : Scheduler) (i j : ℕ) :
    (s.setRunning i).tasks.ptr j =
      if j = i then (s.tasks.ptr j).map (fun t => { t with state := .running })
      else s.tasks.ptr j := by
  unfold setRunning
  rw [StaticArray.ptr_modify]

/-- Selecting a task changes no stored frame. -/
theorem ctxOf_setRunning (s : Scheduler) (i j : ℕ) : (s.setRunning i).ctxOf j = s.ctxOf j := by
  unfold ctxOf
  rw [ptr_setRunning]
  split_ifs with h
  · cases s.tasks.ptr j <;> rfl
  · rfl

theorem ctxOf_selectNext (s : Scheduler) (j : ℕ) : s.selectNext.1.ctxOf j = s.ctxOf j := by
  unfold selectNext
  cases s.nextReady with
  | none => exact ctxOf_setRunning _ _ _
  | some i => exact ctxOf_setRunning _ _ _

theorem liveCount_selectNext (s : Scheduler) :
    s.selectNext.1.tasks.liveCount = s.tasks.liveCount := by
  unfold selectNext
  cases s.nextReady <;> rfl

theorem initialized_selectNext (s : Scheduler) :
    s.selectNext.1.initialized = s.initialized := by
  unfold selectNext
  cases s.nextReady <;> rfl

/-- The task `schedule` leaves at `current_task_index` is `RUNNING`, and the frame it resumes with
is the one stored for it: the frame written back, or the interrupted one when nothing is. -/
theorem selectNext_running {s : Scheduler} {t : Task}
    (hcur : s.tasks.ptr s.currentTaskIndex = some t) :
    ∃ t', s.selectNext.1.tasks.ptr s.selectNext.1.currentTaskIndex = some t' ∧
      t'.state = .running ∧ t'.ctx = s.selectNext.2.getD t.ctx := by
  unfold selectNext
  cases h : s.nextReady with
  | none =>
    refine ⟨{ t with state := .running }, ?_, rfl, rfl⟩
    show (s.setRunning s.currentTaskIndex).tasks.ptr s.currentTaskIndex = _
    rw [ptr_setRunning, if_pos rfl, hcur]
    rfl
  | some i =>
    obtain ⟨u, hu, _⟩ := isReady_iff.1 (nextReady_ready h)
    refine ⟨{ u with state := .running }, ?_, rfl, ?_⟩
    · show (s.setRunning i).tasks.ptr i = _
      rw [ptr_setRunning, if_pos rfl, hu]
      rfl
    · show u.ctx = (s.ctxOf i).getD t.ctx
      unfold ctxOf
      rw [hu]
      rfl

/-- Saving over a task that was `RUNNING`. -/
theorem saveCurrent_running {sym : Symbols} {s s' : Scheduler} {ctx : ℕ} {f : InterruptFrame}
    {t : Task} (hlive : 1 < s.tasks.liveCount) (hcur : s.tasks.ptr s.currentTaskIndex = some t)
    (hrun : t.state = .running) (h : s.saveCurrent sym ctx f = .ok s') :
    s'.currentTaskIndex = s.currentTaskIndex ∧ s'.tasks.liveCount = s.tasks.liveCount ∧
      s'.initialized = s.initialized ∧
      (∃ t', s'.tasks.ptr s.currentTaskIndex = some t' ∧ t'.ctx = f) ∧
      ∀ j, j ≠ s.currentTaskIndex → s'.tasks.ptr j = s.tasks.ptr j := by
  unfold saveCurrent at h
  rw [if_neg (by omega), hcur] at h
  simp only [hrun, if_true] at h
  cases h
  refine ⟨rfl, rfl, rfl, ⟨t.save ctx f, ?_, rfl⟩, fun j hj => ?_⟩
  · show (s.tasks.modify _ _).ptr _ = _
    rw [StaticArray.ptr_modify, if_pos rfl, hcur]
    rfl
  · show (s.tasks.modify _ _).ptr j = _
    rw [StaticArray.ptr_modify, if_neg hj]

/-- A task that is not `RUNNING` is not saved over: nothing changes. -/
theorem saveCurrent_not_running {sym : Symbols} {s : Scheduler} {ctx : ℕ} {f : InterruptFrame}
    {t : Task} (hlive : 1 < s.tasks.liveCount) (hcur : s.tasks.ptr s.currentTaskIndex = some t)
    (hrun : t.state ≠ .running) : s.saveCurrent sym ctx f = .ok s := by
  unfold saveCurrent
  rw [if_neg (by omega), hcur]
  simp only [hrun, if_false]

/-- With a single task, the frame is saved in a new one. -/
theorem saveCurrent_boot {sym : Symbols} {s s' : Scheduler} {ctx : ℕ} {f : InterruptFrame}
    (hlive : s.tasks.liveCount ≤ 1) (h : s.saveCurrent sym ctx f = .ok s') :
    ∃ i, i < taskCapacity ∧ s.tasks.ptr i = none ∧
      s.tasks.emplace (Task.kernel sym s.nextTaskId f) = .ok (s'.tasks, i) ∧
      s'.currentTaskIndex = 1 ∧ s'.initialized = s.initialized := by
  unfold saveCurrent at h
  rw [if_pos hlive, K.bind_eq_ok] at h
  obtain ⟨⟨tasks, i⟩, he, h⟩ := h
  cases h
  obtain ⟨hi, hfree, _⟩ := StaticArray.emplace_eq_ok he
  exact ⟨i, hi, hfree, he, rfl, rfl⟩

/-- `saveCurrent` stores the interrupted frame over that of the task in slot `i`. -/
def savesOver (s : Scheduler) (i : ℕ) : Bool :=
  decide (1 < s.tasks.liveCount) && decide (i = s.currentTaskIndex) &&
    (s.tasks.ptr i).any fun t => t.state == .running

/-- With several tasks, `saveCurrent` saves over the `RUNNING` task at `current_task_index`, or does
nothing. -/
theorem saveCurrent_cases {sym : Symbols} {s s' : Scheduler} {ctx : ℕ} {f : InterruptFrame}
    (hlive : ¬ s.tasks.liveCount ≤ 1) (h : s.saveCurrent sym ctx f = .ok s') :
    (s.savesOver s.currentTaskIndex = true ∧
        s' = { s with tasks := s.tasks.modify s.currentTaskIndex (Task.save ctx f) }) ∨
      ((∀ j, s.savesOver j = false) ∧ s' = s) := by
  unfold saveCurrent at h
  rw [if_neg hlive] at h
  unfold savesOver
  cases hcur : s.tasks.ptr s.currentTaskIndex with
  | none =>
    rw [hcur] at h
    cases h
    refine Or.inr ⟨fun j => ?_, rfl⟩
    by_cases hj : j = s.currentTaskIndex
    · rw [hj, hcur]; simp
    · simp [hj]
  | some t =>
    rw [hcur] at h
    simp only at h
    split_ifs at h with hrun
    · cases h
      exact Or.inl ⟨by simpa [hrun] using hlive, rfl⟩
    · cases h
      refine Or.inr ⟨fun j => ?_, rfl⟩
      by_cases hj : j = s.currentTaskIndex
      · rw [hj, hcur]; simp [hrun]
      · simp [hj]

theorem savesOver_iff {s : Scheduler} {i : ℕ} :
    s.savesOver i = true ↔ 1 < s.tasks.liveCount ∧ i = s.currentTaskIndex ∧
      ∃ t, s.tasks.ptr i = some t ∧ t.state = .running := by
  unfold savesOver
  cases s.tasks.ptr i <;> simp [and_assoc]

/-- The stored frames after `saveCurrent`: that of an occupied slot changes only where it saves. -/
theorem ctxOf_saveCurrent {sym : Symbols} {s s' : Scheduler} {ctx : ℕ} {f : InterruptFrame}
    (h : s.saveCurrent sym ctx f = .ok s') (i : ℕ) :
    (s'.ctxOf i = some f ∧ (s.savesOver i = true ∨ s.ctxOf i = none)) ∨
      (s.savesOver i = false ∧ s'.ctxOf i = s.ctxOf i) := by
  by_cases hlive : s.tasks.liveCount ≤ 1
  · obtain ⟨k, _, _, he, _, _⟩ := saveCurrent_boot hlive h
    obtain ⟨_, hfree, hnew, hother, _⟩ := StaticArray.emplace_eq_ok he
    by_cases hik : i = k
    · left
      rw [ctxOf, ctxOf, hik, hnew, hfree]
      exact ⟨rfl, Or.inr rfl⟩
    · right
      refine ⟨?_, by rw [ctxOf, hother i hik]; rfl⟩
      unfold savesOver
      rw [decide_eq_false (by omega)]; rfl
  · rcases saveCurrent_cases hlive h with ⟨hsave, rfl⟩ | ⟨hno, rfl⟩
    · obtain ⟨_, _, t, ht, _⟩ := savesOver_iff.1 hsave
      by_cases hi : i = s.currentTaskIndex
      · left
        refine ⟨?_, Or.inl (hi ▸ hsave)⟩
        rw [ctxOf, hi, StaticArray.ptr_modify, if_pos rfl, ht]
        rfl
      · right
        refine ⟨by simp [savesOver, hi], ?_⟩
        rw [ctxOf, StaticArray.ptr_modify, if_neg hi]
        rfl
    · exact Or.inr ⟨hno i, rfl⟩

/-! ## The task selected, from the state before the call -/

/-- `schedule` returns at once. -/
def inactive (s : Scheduler) : Bool := !s.initialized || s.tasks.liveCount == 0

/-- There is no slot for the "kernel" task. -/
def tableFull (s : Scheduler) : Bool :=
  !s.inactive && decide (s.tasks.liveCount ≤ 1) && s.tasks.findFreeSlot.isNone

/-- The slot the "kernel" task is put in. -/
def bootSlot (s : Scheduler) : Option ℕ :=
  if !s.inactive && decide (s.tasks.liveCount ≤ 1) then s.tasks.findFreeSlot else none

/-- The task in slot `j` is `READY` once the interrupted frame `f` has been saved. -/
def readyAfter (s : Scheduler) (f : InterruptFrame) (j : ℕ) : Bool :=
  if s.tasks.liveCount ≤ 1 then decide (s.tasks.findFreeSlot = some j) || s.isReady j
  else if s.savesOver j then !diedIn f
  else s.isReady j

/-- The slot the search starts after. -/
def startSlot (s : Scheduler) : ℕ :=
  if !s.inactive && decide (s.tasks.liveCount ≤ 1) then 1 else s.currentTaskIndex

/-- The slot of the next task, if one is found. -/
def upcoming (s : Scheduler) (f : InterruptFrame) : Option ℕ :=
  if s.inactive then none else searchReady (s.readyAfter f) s.startSlot taskCapacity s.startSlot

/-- The slot of the task that runs after the call. -/
def resumedSlot (s : Scheduler) (f : InterruptFrame) : ℕ := (s.upcoming f).getD s.startSlot

theorem isReady_saveCurrent {sym : Symbols} {s s' : Scheduler} {ctx : ℕ} {f : InterruptFrame}
    (h : s.saveCurrent sym ctx f = .ok s') (j : ℕ) : s'.isReady j = s.readyAfter f j := by
  unfold readyAfter
  by_cases hlive : s.tasks.liveCount ≤ 1
  · obtain ⟨k, _, _, he, _, _⟩ := saveCurrent_boot hlive h
    obtain ⟨_, hfree, hnew, hother, _⟩ := StaticArray.emplace_eq_ok he
    have hslot := StaticArray.findFreeSlot_of_emplace he
    rw [if_pos hlive, hslot]
    by_cases hjk : j = k
    · rw [hjk, isReady, hnew]; simp [Task.kernel]
    · rw [isReady, hother j hjk, decide_eq_false (fun e => hjk (Option.some.inj e).symm)]; rfl
  · rw [if_neg hlive]
    rcases saveCurrent_cases hlive h with ⟨hsave, rfl⟩ | ⟨hno, rfl⟩
    · unfold isReady
      simp only [StaticArray.ptr_modify]
      by_cases hj : j = s.currentTaskIndex
      · obtain ⟨_, _, t, ht, _⟩ := savesOver_iff.1 hsave
        rw [hj, hsave, ht]
        cases hd : diedIn f <;> simp [Task.save, hd]
      · simp [hj, savesOver]
    · rw [hno j]; rfl

theorem currentTaskIndex_saveCurrent {sym : Symbols} {s s' : Scheduler} {ctx : ℕ}
    {f : InterruptFrame} (ha : s.inactive = false) (h : s.saveCurrent sym ctx f = .ok s') :
    s'.currentTaskIndex = s.startSlot := by
  unfold startSlot
  rw [ha]
  by_cases hlive : s.tasks.liveCount ≤ 1
  · obtain ⟨_, _, _, _, hidx, _⟩ := saveCurrent_boot hlive h
    rw [hidx, decide_eq_true hlive]
    rfl
  · rw [decide_eq_false hlive]
    rcases saveCurrent_cases hlive h with ⟨_, rfl⟩ | ⟨_, rfl⟩ <;> rfl

theorem nextReady_saveCurrent {sym : Symbols} {s s' : Scheduler} {ctx : ℕ} {f : InterruptFrame}
    (ha : s.inactive = false) (h : s.saveCurrent sym ctx f = .ok s') :
    s'.nextReady = s.upcoming f := by
  unfold nextReady upcoming
  rw [currentTaskIndex_saveCurrent ha h, funext (isReady_saveCurrent h), ha]
  rfl

/-- What `schedule` selects and writes back, by the state before it. -/
theorem schedule_eq_ok {sym : Symbols} {s s' : Scheduler} {ctx : ℕ} {f : InterruptFrame}
    {out : Option InterruptFrame} (h : s.schedule sym ctx f = .ok (s', out)) :
    s.tableFull = false ∧ s'.currentTaskIndex = s.resumedSlot f ∧
      match s.upcoming f with
      | none => out = none
      | some i => out.isSome ∧ (out = some f ∧ (s.savesOver i = true ∨ s.ctxOf i = none) ∨
          s.savesOver i = false ∧ out = s.ctxOf i) := by
  unfold schedule at h
  change (if s.inactive then _ else _) = _ at h
  cases ha : s.inactive with
  | true =>
    rw [if_pos ha] at h
    cases h
    simp [tableFull, resumedSlot, upcoming, startSlot, ha]
  | false =>
    rw [if_neg (by simp [ha]), K.bind_eq_ok] at h
    obtain ⟨s₁, hsave, hout⟩ := h
    have hcur := currentTaskIndex_saveCurrent ha hsave
    have hnext := nextReady_saveCurrent ha hsave
    have hctx := fun i => ctxOf_saveCurrent hsave i
    have hfull : s.tableFull = false := by
      unfold tableFull
      by_cases hlive : s.tasks.liveCount ≤ 1
      · obtain ⟨_, _, _, he, _, _⟩ := saveCurrent_boot hlive hsave
        rw [StaticArray.findFreeSlot_of_emplace he]
        simp
      · simp [hlive]
    unfold resumedSlot
    unfold selectNext at hout
    rw [hnext] at hout
    cases hup : s.upcoming f with
    | none =>
      rw [hup] at hout
      cases hout
      exact ⟨hfull, hcur, rfl⟩
    | some i =>
      rw [hup] at hout hnext
      cases hout
      refine ⟨hfull, rfl, ?_, ?_⟩
      · obtain ⟨t, ht, _⟩ := isReady_iff.1 (nextReady_ready hnext)
        unfold ctxOf
        rw [ht]
        rfl
      · exact hctx i

theorem exists_schedule {s : Scheduler} (hfull : s.tableFull = false) (sym : Symbols) (ctx : ℕ)
    (f : InterruptFrame) : ∃ s' out, s.schedule sym ctx f = .ok (s', out) := by
  unfold schedule
  change ∃ s' out, (if s.inactive then _ else _) = _
  cases ha : s.inactive with
  | true => exact ⟨s, none, rfl⟩
  | false =>
    have hsave : ∃ s₁, s.saveCurrent sym ctx f = .ok s₁ := by
      unfold saveCurrent
      by_cases hlive : s.tasks.liveCount ≤ 1
      · obtain ⟨i, hi⟩ : ∃ i, s.tasks.findFreeSlot = some i := by
          rw [← Option.isSome_iff_exists, ← Option.not_isNone]
          simpa [tableFull, ha, hlive] using hfull
        rw [if_pos hlive]
        unfold StaticArray.emplace
        rw [hi]
        exact ⟨_, rfl⟩
      · rw [if_neg hlive]
        cases s.tasks.ptr s.currentTaskIndex with
        | none => exact ⟨_, rfl⟩
        | some t =>
          dsimp only
          split_ifs
          · exact ⟨_, rfl⟩
          · exact ⟨_, rfl⟩
    obtain ⟨s₁, hs⟩ := hsave
    rw [hs]
    exact ⟨_, _, rfl⟩

/-- A created task is `READY`, in a slot that was free; no other slot changes. -/
theorem createTask_eq_ok {sym : Symbols} {s s' : Scheduler} {name : String} {entry : UInt32}
    {base : ℕ} {stale : UInt32 × UInt32} {i : ℕ}
    (h : s.createTask sym name entry base stale = .ok (s', i)) :
    s.tasks.ptr i = none ∧ (∃ t, s'.tasks.ptr i = some t ∧ t.state = .ready) ∧
      (∀ j, j ≠ i → s'.tasks.ptr j = s.tasks.ptr j) ∧
      s'.tasks.liveCount = s.tasks.liveCount + 1 ∧
      s'.currentTaskIndex = s.currentTaskIndex ∧ s'.initialized = s.initialized := by
  unfold createTask at h
  rw [K.bind_eq_ok] at h
  obtain ⟨⟨tasks, k⟩, he, h⟩ := h
  cases h
  obtain ⟨_, hfree, hnew, hother, hcount⟩ := StaticArray.emplace_eq_ok he
  refine ⟨hfree, ⟨(Task.new sym s.nextTaskId name base stale).setEntry entry, ?_, rfl⟩,
    fun j hj => ?_, hcount, rfl, rfl⟩
  · show (tasks.modify i _).ptr i = _
    rw [StaticArray.ptr_modify, if_pos rfl, hnew]
    rfl
  · show (tasks.modify i _).ptr j = _
    rw [StaticArray.ptr_modify, if_neg hj, hother j hj]

/-- After construction there is one task, "idle", in slot `0`, `READY`. -/
theorem construct_eq_ok {sym : Symbols} {idleEntry : UInt32} {base : ℕ} {stale : UInt32 × UInt32}
    {s : Scheduler} (h : construct sym idleEntry base stale = .ok s) :
    s.tasks.liveCount = 1 ∧ s.currentTaskIndex = 0 ∧ s.initialized = true ∧
      (∃ t, s.tasks.ptr 0 = some t ∧ t.state = .ready) ∧ ∀ j, j ≠ 0 → s.tasks.ptr j = none := by
  unfold construct at h
  rw [K.bind_eq_ok] at h
  obtain ⟨⟨s1, i⟩, hc, h⟩ := h
  cases h
  have hi : i = 0 := by
    unfold createTask at hc
    rw [K.bind_eq_ok] at hc
    obtain ⟨⟨tasks, k⟩, he, hc⟩ := hc
    cases hc
    have hslot : (StaticArray.empty : StaticArray Task taskCapacity).findFreeSlot = some 0 := rfl
    unfold StaticArray.emplace at he
    rw [hslot] at he
    cases he
    rfl
  subst hi
  obtain ⟨_, hready, hother, hcount, hidx, _⟩ := createTask_eq_ok hc
  refine ⟨hcount, hidx, rfl, hready, fun j hj => ?_⟩
  rw [hother j hj]
  unfold StaticArray.empty StaticArray.ptr
  split_ifs <;> rfl

end Scheduler

end Ospp
