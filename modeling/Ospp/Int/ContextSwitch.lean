import Ospp.Lib.Mem
import Ospp.Lib.Trans
import Ospp.Sched.Contexts

/-!
# Interrupt entry and exit

`context_switch<N>` with the part of it the processor performs, for an interrupt taken in ring 0:
the processor pushes `eflags`, `cs` and `eip`, the stub pushes fourteen more words, `isr_handler`
saves and restores the FPU state around the handler, and the stub and `iret` pop everything again.
`popa` skips the word saved for `esp`, and `iret` does not change the privilege level, so it pops
three words.

The handler is the scheduler: it is given the address of the pushed words as an `InterruptFrame`,
which is two words longer than what was pushed. What the C++ code of the handler keeps on the stack
below the frame is not modelled.
-/

namespace Ospp

open Trans

/-! ## The frame in memory -/

namespace InterruptFrame

/-- The words of a frame, lowest address first. -/
def words (f : InterruptFrame) : List UInt32 :=
  [f.ds, f.es, f.fs, f.gs, f.edi, f.esi, f.ebp, f.esp, f.ebx, f.edx, f.ecx, f.eax, f.intNo,
    f.errCode, f.eip, f.cs, f.eflags, f.userEsp, f.userSs]

/-- The frame at an address. -/
def load (m : Mem) (a : ℕ) : InterruptFrame :=
  let w (k : ℕ) : UInt32 := UInt32.ofNat (m.read32 (a + 4 * k))
  ⟨w 0, w 1, w 2, w 3, w 4, w 5, w 6, w 7, w 8, w 9, w 10, w 11, w 12, w 13, w 14, w 15, w 16,
    w 17, w 18⟩

/-- `memcpy(a, &f, sizeof(InterruptFrame))`. -/
def store (f : InterruptFrame) (m : Mem) (a : ℕ) : Mem :=
  m.writeWords a (f.words.map UInt32.toNat)

end InterruptFrame

/-- Copy the selected task's frame, if there is one, over the interrupted frame. -/
def writeBack (out : Option InterruptFrame) (m : Mem) (ctx : ℕ) : Mem :=
  match out with
  | some f => f.store m ctx
  | none => m

/-- `Scheduler::schedule` on the frame at address `ctx`. -/
def scheduleAt (sym : Symbols) (s : Scheduler) (m : Mem) (ctx : ℕ) : K (Scheduler × Mem) := do
  let (s, out) ← s.schedule sym ctx (InterruptFrame.load m ctx)
  return (s, writeBack out m ctx)

/-! ## The processor -/

/-- The registers, with the FPU state as one value of an arbitrary type. -/
structure Cpu (Φ : Type) where
  eip : UInt32
  cs : UInt32
  eflags : UInt32
  eax : UInt32
  ecx : UInt32
  edx : UInt32
  ebx : UInt32
  esp : UInt32
  ebp : UInt32
  esi : UInt32
  edi : UInt32
  ds : UInt16
  es : UInt16
  fs : UInt16
  gs : UInt16
  fpu : Φ

/-- One core: its registers, memory, its `fxsave_region`, and the scheduler. -/
structure Machine (Φ : Type) where
  cpu : Cpu Φ
  mem : Mem
  fxsaveRegion : Φ
  sched : Scheduler

namespace Machine

variable {Φ : Type}

def push (m : Machine Φ) (v : UInt32) : Machine Φ :=
  { m with
    cpu := { m.cpu with esp := m.cpu.esp - 4 }
    mem := m.mem.write32 (m.cpu.esp - 4).toNat v.toNat }

/-- Push a list of words, the first one first. -/
def pushAll (m : Machine Φ) : List UInt32 → Machine Φ
  | [] => m
  | v :: vs => (m.push v).pushAll vs

/-- The word at the top of the stack. -/
def top (m : Machine Φ) : UInt32 := UInt32.ofNat (m.mem.read32 m.cpu.esp.toNat)

/-- Drop `n` bytes from the stack. -/
def drop (m : Machine Φ) (n : UInt32) : Machine Φ :=
  { m with cpu := { m.cpu with esp := m.cpu.esp + n } }

/-- Pop into the register that `f` assigns. -/
def popTo (m : Machine Φ) (f : Cpu Φ → UInt32 → Cpu Φ) : Machine Φ :=
  let m' := m.drop 4
  { m' with cpu := f m'.cpu m.top }

/-- The words pushed by the processor and then by `context_switch<N>`. `pusha` pushes the value
that `esp` has when it starts. -/
def entryWords (c : Cpu Φ) (n : UInt32) : List UInt32 :=
  [c.eflags, c.cs, c.eip, 0, n, c.eax, c.ecx, c.edx, c.ebx, c.esp - 20, c.ebp, c.esi, c.edi,
    c.gs.toUInt32, c.fs.toUInt32, c.es.toUInt32, c.ds.toUInt32]

/-- From the interrupt to the call of `isr_handler`. -/
def entry (m : Machine Φ) (n : UInt32) : Machine Φ :=
  let m' := m.pushAll (entryWords m.cpu n)
  { m' with cpu := { m'.cpu with ds := 0x10, es := 0x10, fs := 0x10, gs := 0x10 } }

/-- From the return of `isr_handler` through `iret`. -/
def exit (m : Machine Φ) : Machine Φ :=
  let m := m.popTo fun c v => { c with ds := v.toUInt16 }
  let m := m.popTo fun c v => { c with es := v.toUInt16 }
  let m := m.popTo fun c v => { c with fs := v.toUInt16 }
  let m := m.popTo fun c v => { c with gs := v.toUInt16 }
  -- popa
  let m := m.popTo fun c v => { c with edi := v }
  let m := m.popTo fun c v => { c with esi := v }
  let m := m.popTo fun c v => { c with ebp := v }
  let m := m.drop 4
  let m := m.popTo fun c v => { c with ebx := v }
  let m := m.popTo fun c v => { c with edx := v }
  let m := m.popTo fun c v => { c with ecx := v }
  let m := m.popTo fun c v => { c with eax := v }
  -- err_code and int_no
  let m := m.drop 8
  -- iret
  let m := m.popTo fun c v => { c with eip := v }
  let m := m.popTo fun c v => { c with cs := v }
  m.popTo fun c v => { c with eflags := v }

/-- `isr_handler` with the scheduler as the handler. `scratch` is the FPU state the handler's own
code leaves behind. -/
def isrHandler (sym : Symbols) (m : Machine Φ) (scratch : Φ) : K (Machine Φ) := do
  let m := { m with fxsaveRegion := m.cpu.fpu }
  let (s, mem) ← scheduleAt sym m.sched m.mem m.cpu.esp.toNat
  let m := { m with sched := s, mem := mem, cpu := { m.cpu with fpu := scratch } }
  return { m with cpu := { m.cpu with fpu := m.fxsaveRegion } }

/-- An interrupt, from the interrupted instruction to the resumed one. -/
def interrupt (sym : Symbols) (m : Machine Φ) (n : UInt32) (scratch : Φ) : K (Machine Φ) := do
  let m ← (m.entry n).isrHandler sym scratch
  return m.exit

/-! ## The stack pointer -/

@[simp] theorem esp_pushAll (m : Machine Φ) : ∀ vs : List UInt32,
    (m.pushAll vs).cpu.esp = m.cpu.esp - 4 * UInt32.ofNat vs.length := by
  intro vs
  induction vs generalizing m with
  | nil => simp [pushAll]
  | cons v vs ih =>
    rw [pushAll, ih, List.length_cons]
    show m.cpu.esp - 4 - 4 * UInt32.ofNat vs.length = _
    rw [UInt32.ofNat_add]
    grind

@[simp] theorem fpu_pushAll (m : Machine Φ) : ∀ vs : List UInt32,
    (m.pushAll vs).cpu.fpu = m.cpu.fpu := by
  intro vs
  induction vs generalizing m with
  | nil => rfl
  | cons v vs ih => rw [pushAll, ih]; rfl

@[simp] theorem sched_pushAll (m : Machine Φ) : ∀ vs : List UInt32,
    (m.pushAll vs).sched = m.sched := by
  intro vs
  induction vs generalizing m with
  | nil => rfl
  | cons v vs ih => rw [pushAll, ih]; rfl

/-- The address of the frame: seventeen words below the interrupted stack pointer. -/
theorem esp_entry (m : Machine Φ) (n : UInt32) : (m.entry n).cpu.esp = m.cpu.esp - 68 := by
  have hlen : 4 * UInt32.ofNat (entryWords m.cpu n).length = 68 := by
    rw [show (entryWords m.cpu n).length = 17 from rfl]
    decide
  simp only [entry, esp_pushAll, hlen]

theorem fpu_entry (m : Machine Φ) (n : UInt32) : (m.entry n).cpu.fpu = m.cpu.fpu := by
  simp only [entry, fpu_pushAll]

theorem sched_entry (m : Machine Φ) (n : UInt32) : (m.entry n).sched = m.sched := by
  simp only [entry, sched_pushAll]

theorem esp_popTo {m : Machine Φ} {f : Cpu Φ → UInt32 → Cpu Φ}
    (hf : ∀ c v, (f c v).esp = c.esp) : (m.popTo f).cpu.esp = m.cpu.esp + 4 := hf _ _

theorem fpu_popTo {m : Machine Φ} {f : Cpu Φ → UInt32 → Cpu Φ}
    (hf : ∀ c v, (f c v).fpu = c.fpu) : (m.popTo f).cpu.fpu = m.cpu.fpu := hf _ _

theorem esp_drop (m : Machine Φ) (n : UInt32) : (m.drop n).cpu.esp = m.cpu.esp + n := rfl

theorem fpu_drop (m : Machine Φ) (n : UInt32) : (m.drop n).cpu.fpu = m.cpu.fpu := rfl

theorem esp_exit (m : Machine Φ) : m.exit.cpu.esp = m.cpu.esp + 68 := by
  simp only [exit, esp_popTo, esp_drop, implies_true]
  grind

theorem fpu_exit (m : Machine Φ) : m.exit.cpu.fpu = m.cpu.fpu := by
  simp only [exit, fpu_popTo, fpu_drop, implies_true]

theorem sched_exit (m : Machine Φ) : m.exit.sched = m.sched := by
  simp only [exit, popTo, drop]

/-- **The stack pointer and the FPU state stay with the processor.** Whatever task is selected, it
resumes on the stack and with the FPU state of the task that was interrupted. -/
theorem interrupt_esp_fpu {sym : Symbols} {m m' : Machine Φ} {n : UInt32} {scratch : Φ}
    (h : m.interrupt sym n scratch = .ok m') :
    m'.cpu.esp = m.cpu.esp ∧ m'.cpu.fpu = m.cpu.fpu := by
  unfold interrupt isrHandler at h
  simp only [K.bind_eq_ok] at h
  obtain ⟨m1, ⟨⟨s, mem⟩, _, h1⟩, h2⟩ := h
  cases h1
  cases h2
  constructor
  · rw [esp_exit]
    show (m.entry n).cpu.esp + 68 = _
    rw [esp_entry]
    grind
  · rw [fpu_exit]
    show (m.entry n).cpu.fpu = _
    exact fpu_entry m n

/-- The frame that `schedule` is given. -/
def frame (m : Machine Φ) (n : UInt32) : InterruptFrame :=
  InterruptFrame.load (m.entry n).mem (m.entry n).cpu.esp.toNat

/-- `schedule` as called by the interrupt. -/
def scheduleIn (sym : Symbols) (m : Machine Φ) (n : UInt32) : K (Scheduler × Mem) :=
  scheduleAt sym (m.entry n).sched (m.entry n).mem (m.entry n).cpu.esp.toNat

theorem scheduleIn_eq_ok {sym : Symbols} {m : Machine Φ} {n : UInt32} {s : Scheduler} {mem : Mem} :
    m.scheduleIn sym n = .ok (s, mem) ↔ ∃ out,
      m.sched.schedule sym (m.entry n).cpu.esp.toNat (m.frame n) = .ok (s, out) ∧
        mem = writeBack out (m.entry n).mem (m.entry n).cpu.esp.toNat := by
  unfold scheduleIn scheduleAt frame
  rw [K.bind_eq_ok, sched_entry]
  constructor
  · rintro ⟨⟨s₁, out⟩, h, hp⟩
    cases hp
    exact ⟨out, h, rfl⟩
  · rintro ⟨out, h, rfl⟩
    exact ⟨(s, out), h, rfl⟩

/-- An interrupt is one `schedule` on the pushed frame. -/
theorem interrupt_eq_ok {sym : Symbols} {m m' : Machine Φ} {n : UInt32} {scratch : Φ}
    (h : m.interrupt sym n scratch = .ok m') : ∃ mem, m.scheduleIn sym n = .ok (m'.sched, mem) := by
  unfold interrupt isrHandler at h
  simp only [K.bind_eq_ok] at h
  obtain ⟨m1, ⟨⟨s, mem⟩, hs, h1⟩, h2⟩ := h
  cases h1
  cases h2
  exact ⟨mem, hs⟩

theorem exists_interrupt {sym : Symbols} {m : Machine Φ} {n : UInt32} {s : Scheduler} {mem : Mem}
    (h : m.scheduleIn sym n = .ok (s, mem)) (scratch : Φ) :
    ∃ m', m.interrupt sym n scratch = .ok m' ∧ m'.sched = s := by
  have hi : ∃ m₁, (m.entry n).isrHandler sym scratch = .ok m₁ ∧ m₁.sched = s := by
    unfold isrHandler
    simp only [K.bind_eq_ok]
    exact ⟨_, ⟨⟨s, mem⟩, h, rfl⟩, rfl⟩
  obtain ⟨m₁, hm, rfl⟩ := hi
  refine ⟨m₁.exit, ?_, sched_exit m₁⟩
  unfold interrupt
  rw [hm]
  rfl

end Machine

/-! ## Preemption -/

/-- The calls a run is made of. At a `preempt` the executing task has brought registers and memory
into an arbitrary state; `scratch` is what the handler leaves in the FPU. -/
inductive CoreAct (Φ : Type) where
  | createTask (name : String) (entryPoint : UInt32) (stackBase : ℕ) (stale : UInt32 × UInt32)
  | preempt (cpu : Cpu Φ) (mem : Mem) (n : UInt32) (scratch : Φ)

/-- One core, with what an observer records at each interruption of a task. -/
structure CoreWorld (Φ : Type) where
  machine : Machine Φ
  /-- The slot of the task that is executing; `none` for the boot context. -/
  exec : Option ℕ
  /-- `ESP` and the FPU state at a slot's most recent interruption. -/
  last : ℕ → Option (UInt32 × Φ)

namespace CoreWorld

variable {Φ : Type}

/-- The machine at the moment of the interrupt. -/
def atInterrupt (w : CoreWorld Φ) (cpu : Cpu Φ) (mem : Mem) : Machine Φ :=
  { w.machine with cpu := cpu, mem := mem }

/-- The slot of the interrupted task; the boot context stands in the slot `schedule` gives it. -/
def interrupted (w : CoreWorld Φ) : Option ℕ := w.exec.or w.machine.sched.bootSlot

/-- The slot of the task that continues after an interrupt that led to the scheduler `s'`. -/
def resumed (w : CoreWorld Φ) (s' : Scheduler) : Option ℕ :=
  if w.machine.sched.inactive then w.exec else some s'.currentTaskIndex

/-- The record after the interruption. -/
def record (w : CoreWorld Φ) (cpu : Cpu Φ) : ℕ → Option (UInt32 × Φ) :=
  fun j => if w.interrupted = some j then some (cpu.esp, cpu.fpu) else w.last j

def step (sym : Symbols) (w : CoreWorld Φ) : CoreAct Φ → K (CoreWorld Φ)
  | .createTask name entry base stale => do
    let (s, _) ← w.machine.sched.createTask sym name entry base stale
    return { w with machine := { w.machine with sched := s } }
  | .preempt cpu mem n scratch => do
    let m' ← (w.atInterrupt cpu mem).interrupt sym n scratch
    return ⟨m', w.resumed m'.sched, w.record cpu⟩

def Step (sym : Symbols) (w : CoreWorld Φ) (a : CoreAct Φ) (w' : CoreWorld Φ) : Prop :=
  w.step sym a = .ok w'

/-- The task resumed finds the `ESP` and the FPU state it had when it was last interrupted. -/
def Follows (sym : Symbols) (w : CoreWorld Φ) : CoreAct Φ → Prop
  | .createTask .. => True
  | .preempt cpu mem n scratch =>
    ∀ m', (w.atInterrupt cpu mem).interrupt sym n scratch = .ok m' →
      ∀ j p, w.resumed m'.sched = some j → w.record cpu j = some p →
        (m'.cpu.esp, m'.cpu.fpu) = p

/-- The task whose turn it is is the interrupted one, or one that has never been interrupted, or
one whose `ESP` and FPU state happen to be those of the interrupted task. -/
def NoSwitch (w : CoreWorld Φ) : CoreAct Φ → Prop
  | .createTask .. => True
  | .preempt cpu mem n _ =>
    w.machine.sched.inactive = false → w.machine.sched.tableFull = false →
      let j := w.machine.sched.resumedSlot ((w.atInterrupt cpu mem).frame n)
      w.interrupted = some j ∨ ∀ p, w.last j = some p → p = (cpu.esp, cpu.fpu)

/-- What an interrupt leaves in the processor, against the record. -/
theorem record_iff {w : CoreWorld Φ} {cpu : Cpu Φ} {j : ℕ} :
    (∀ p, w.record cpu j = some p → (cpu.esp, cpu.fpu) = p) ↔
      (w.interrupted = some j ∨ ∀ p, w.last j = some p → p = (cpu.esp, cpu.fpu)) := by
  unfold record
  by_cases hi : w.interrupted = some j
  · rw [if_pos hi]
    exact ⟨fun _ => Or.inl hi, fun _ p hp => Option.some.inj hp⟩
  · rw [if_neg hi]
    constructor
    · intro h; exact Or.inr fun p hp => (h p hp).symm
    · rintro (h | h) p hp
      · exact absurd h hi
      · exact (h p hp).symm

theorem follows_iff (sym : Symbols) (w : CoreWorld Φ) (a : CoreAct Φ) :
    w.Follows sym a ↔ w.NoSwitch a := by
  cases a with
  | createTask => exact Iff.rfl
  | preempt cpu mem n scratch =>
    constructor
    · intro h hact hfull
      obtain ⟨s, out, hs⟩ := Scheduler.exists_schedule hfull sym
        ((w.atInterrupt cpu mem).entry n).cpu.esp.toNat ((w.atInterrupt cpu mem).frame n)
      obtain ⟨_, hcur, _⟩ := Scheduler.schedule_eq_ok hs
      obtain ⟨m', hm, rfl⟩ := Machine.exists_interrupt (m := w.atInterrupt cpu mem)
        (Machine.scheduleIn_eq_ok.2 ⟨out, hs, rfl⟩) scratch
      obtain ⟨hesp, hfpu⟩ := Machine.interrupt_esp_fpu hm
      refine record_iff.1 fun p hp => ?_
      have hf := h m' hm _ p (by rw [resumed, hact, hcur]; rfl) hp
      rw [hesp, hfpu] at hf
      exact hf
    · intro h m' hm j p hj hp
      obtain ⟨hesp, hfpu⟩ := Machine.interrupt_esp_fpu hm
      rw [hesp, hfpu]
      obtain ⟨mem', hs⟩ := Machine.interrupt_eq_ok hm
      obtain ⟨out, hs, _⟩ := Machine.scheduleIn_eq_ok.1 hs
      obtain ⟨hfull, hcur, _⟩ := Scheduler.schedule_eq_ok hs
      unfold resumed at hj
      cases hact : w.machine.sched.inactive with
      | true =>
        -- the scheduler does nothing: the interrupted task continues
        rw [hact, if_pos rfl] at hj
        exact record_iff.2 (Or.inl (by rw [interrupted, hj]; rfl)) p hp
      | false =>
        rw [hact, hcur] at hj
        cases hj
        exact record_iff.2 (h hact hfull) p hp

/-- A run of two preemptions after which the resumed task does not find what was recorded. -/
theorem not_along_follows {sym : Symbols} {w w₁ w₂ : CoreWorld Φ} {a : CoreAct Φ} {cpu : Cpu Φ}
    {mem : Mem} {n : UInt32} {scratch : Φ} {j : ℕ} {p : UInt32 × Φ} (h₁ : w.Step sym a w₁)
    (h₂ : w₁.Step sym (.preempt cpu mem n scratch) w₂)
    (hexec : w₂.exec = some j) (hlast : w₂.last j = some p)
    (hp : (w₂.machine.cpu.esp, w₂.machine.cpu.fpu) ≠ p) :
    ¬ Along (Step sym) (Follows sym) w [a, .preempt cpu mem n scratch] := by
  intro h
  have hf := (h.2 _ h₁).1
  unfold Step step at h₂
  rw [K.bind_eq_ok] at h₂
  obtain ⟨m', hm, h₂⟩ := h₂
  cases h₂
  exact hp (hf m' hm j p hexec hlast)

/-- The world after `Scheduler::Scheduler`: the boot context is executing. -/
def boot (cpu : Cpu Φ) (mem : Mem) (s : Scheduler) : CoreWorld Φ :=
  ⟨⟨cpu, mem, cpu.fpu, s⟩, none, fun _ => none⟩

/-- Registers of a task in ring 0. -/
def sampleCpu (eip esp : UInt32) (fpu : Φ) : Cpu Φ :=
  ⟨eip, 0x8, 0x202, 0, 0, 0, 0, esp, 0, 0, 0, 0x10, 0x10, 0x10, 0x10, fpu⟩

end CoreWorld

/-- **Stack pointer and FPU state.** In a run of preemptions every task interrupted earlier resumes
with its own `ESP` and FPU state if and only if no interrupt switches to another task that was
interrupted earlier (with a different `ESP` or FPU state): the frame is swapped in place, `popa`
skips `esp`, and `fxrstor` reads what `fxsave` wrote for the interrupted task. -/
theorem stack_and_fpu_follow_iff {Φ : Type} (sym : Symbols) (w : CoreWorld Φ)
    (as : List (CoreAct Φ)) :
    Along (CoreWorld.Step sym) (CoreWorld.Follows sym) w as ↔
      Along (CoreWorld.Step sym) CoreWorld.NoSwitch w as :=
  ⟨Along.mono fun w a => (CoreWorld.follows_iff sym w a).1,
    Along.mono fun w a => (CoreWorld.follows_iff sym w a).2⟩

open CoreWorld in
/-- The boot context, interrupted on its stack with one FPU state, is resumed on the stack of the
"idle" task with the other. -/
theorem kernel_resumed_on_idle_stack : ∃ s,
    Scheduler.construct World.sampleSymbols 0x200200 0x1000000 (0, 0) = .ok s ∧
      ¬ Along (CoreWorld.Step World.sampleSymbols) (CoreWorld.Follows World.sampleSymbols)
        (CoreWorld.boot (sampleCpu 0x200010 0x302000 false) (fun _ => 0) s)
        [.preempt (sampleCpu 0x200010 0x302000 false) (fun _ => 0) 48 false,
          .preempt (sampleCpu 0x200210 0x1001000 true) (fun _ => 0) 32 false] := by
  obtain ⟨⟨s, w⟩, hw, hp⟩ := K.exists_of_holds
    (x := do
      let s ← Scheduler.construct World.sampleSymbols 0x200200 0x1000000 (0, 0)
      let w ← (CoreWorld.boot (sampleCpu 0x200010 0x302000 false) (fun _ => 0) s).step
        World.sampleSymbols (.preempt (sampleCpu 0x200010 0x302000 false) (fun _ => 0) 48 false)
      let w ← w.step World.sampleSymbols
        (.preempt (sampleCpu 0x200210 0x1001000 true) (fun _ => 0) 32 false)
      return (s, w))
    (p := fun r => r.2.exec == some 1 && r.2.last 1 == some (0x302000, false) &&
      r.2.machine.cpu.esp == 0x1001000) (by decide +kernel)
  simp only [K.bind_eq_ok] at hw
  obtain ⟨s', hs, w₁, h₁, w₂, h₂, hr⟩ := hw
  cases hr
  simp only [Bool.and_eq_true, beq_iff_eq] at hp
  obtain ⟨⟨hexec, hlast⟩, hesp⟩ := hp
  refine ⟨s, hs, not_along_follows h₁ h₂ hexec hlast fun h => ?_⟩
  rw [hesp] at h
  cases h

/-! ## The stack above the frame -/

namespace Machine

variable {Φ : Type}

/-- Pushing changes nothing above the interrupted stack pointer. -/
theorem read8_pushAll : ∀ (vs : List UInt32) (m : Machine Φ) (x : ℕ), vs.length ≤ 1024 →
    4 * vs.length ≤ Word32.sub x (m.pushAll vs).cpu.esp.toNat →
      (m.pushAll vs).mem.read8 x = m.mem.read8 x := by
  intro vs
  induction vs with
  | nil => intro m x _ _; rfl
  | cons v vs ih =>
    intro m x hlen hx
    rw [List.length_cons] at hlen hx
    have hx' : 4 * (vs.length + 1) ≤ Word32.sub x ((m.push v).pushAll vs).cpu.esp.toNat := hx
    rw [pushAll, ih _ _ (by omega) (by omega)]
    show (m.mem.write32 (m.cpu.esp - 4).toNat v.toNat).read8 x = _
    apply Mem.read8_write32_of_le
    have hesp : ((m.push v).pushAll vs).cpu.esp = m.cpu.esp - 4 - 4 * UInt32.ofNat vs.length :=
      esp_pushAll (m.push v) vs
    rw [hesp, UInt32.toNat_sub, UInt32.toNat_mul, UInt32.toNat_ofNat'] at hx'
    have h4 : (4 : UInt32).toNat = 4 := rfl
    rw [h4] at hx'
    unfold Word32.sub at *
    omega

theorem read8_entry {m : Machine Φ} {n : UInt32} {x : ℕ}
    (hx : 68 ≤ Word32.sub x (m.entry n).cpu.esp.toNat) :
    (m.entry n).mem.read8 x = m.mem.read8 x := by
  have hlen : (entryWords m.cpu n).length = 17 := by simp only [entryWords, List.length_cons,
    List.length_nil]
  have hesp : (m.entry n).cpu.esp = (m.pushAll (entryWords m.cpu n)).cpu.esp := by
    simp only [entry]
  rw [hesp] at hx
  have hmem : (m.entry n).mem = (m.pushAll (entryWords m.cpu n)).mem := by simp only [entry]
  rw [hmem]
  exact read8_pushAll (entryWords m.cpu n) m x (by omega) (by omega)

/-- The words above the frame are the first ones at the interrupted stack pointer. -/
theorem read32_entry (m : Machine Φ) (n : UInt32) {k : ℕ} (hk : k < 5) :
    (m.entry n).mem.read32 ((m.entry n).cpu.esp.toNat + 68 + k) =
      m.mem.read32 (m.cpu.esp.toNat + k) := by
  have hesp : (m.entry n).cpu.esp.toNat = (m.cpu.esp.toNat + 4294967228) % 4294967296 := by
    rw [esp_entry, UInt32.toNat_sub]
    have h68 : (68 : UInt32).toNat = 68 := rfl
    rw [h68]
    omega
  have hlt : m.cpu.esp.toNat < 4294967296 := m.cpu.esp.toNat_lt
  have habove : (m.entry n).mem.read32 ((m.entry n).cpu.esp.toNat + 68 + k) =
      m.mem.read32 ((m.entry n).cpu.esp.toNat + 68 + k) := by
    apply Mem.read32_congr
    intro j hj
    refine read8_entry ?_
    unfold Word32.sub
    omega
  rw [habove]
  exact Mem.read32_mod _ (by omega)

/-- `schedule` changes no byte above the words pushed at the interrupt. -/
def KeepsStackAbove (sym : Symbols) (m : Machine Φ) (n : UInt32) : Prop :=
  ∀ s mem, m.scheduleIn sym n = .ok (s, mem) →
    ∀ x, 68 ≤ Word32.sub x (m.entry n).cpu.esp.toNat → mem.read8 x = m.mem.read8 x

/-- If the task whose turn it is is not the interrupted one, the `user_esp` and `user_ss` stored
for it are the two words on top of the interrupted stack. -/
def NextWordsMatch (m : Machine Φ) (n : UInt32) : Prop :=
  m.sched.tableFull = false → ∀ i g, m.sched.upcoming (m.frame n) = some i →
    m.sched.savesOver i = false → m.sched.ctxOf i = some g →
      m.mem.read32 m.cpu.esp.toNat = g.userEsp.toNat ∧
        m.mem.read32 (m.cpu.esp.toNat + 4) = g.userSs.toNat

theorem store_keeps_iff (g : InterruptFrame) (m : Mem) (a : ℕ) :
    (∀ x, 68 ≤ Word32.sub x a → (g.store m a).read8 x = m.read8 x) ↔
      m.read32 (a + 68) = g.userEsp.toNat ∧ m.read32 (a + 68 + 4) = g.userSs.toNat :=
  Mem.writeWords_keeps_iff
    ([g.ds, g.es, g.fs, g.gs, g.edi, g.esi, g.ebp, g.esp, g.ebx, g.edx, g.ecx, g.eax,
      g.intNo, g.errCode, g.eip, g.cs, g.eflags].map UInt32.toNat)
    g.userEsp.toNat_lt g.userSs.toNat_lt (by simp)

/-- Writing back the frame of the interrupted task itself changes nothing above it. -/
theorem store_frame_keeps (m : Machine Φ) (n : UInt32) (x : ℕ)
    (hx : 68 ≤ Word32.sub x (m.entry n).cpu.esp.toNat) :
    ((m.frame n).store (m.entry n).mem (m.entry n).cpu.esp.toNat).read8 x =
      (m.entry n).mem.read8 x := by
  refine (store_keeps_iff _ _ _).2 ⟨?_, ?_⟩ x hx
  · show _ = (UInt32.ofNat ((m.entry n).mem.read32 _)).toNat
    rw [UInt32.toNat_ofNat', Nat.mod_eq_of_lt (Mem.read32_lt _ _)]
  · show _ = (UInt32.ofNat ((m.entry n).mem.read32 _)).toNat
    rw [UInt32.toNat_ofNat', Nat.mod_eq_of_lt (Mem.read32_lt _ _)]

end Machine

/-- **The stack above the frame.** `schedule` copies nineteen words where the interrupt pushed
seventeen: the interrupted stack is intact if and only if the two extra words of the next task's
frame are already there. -/
theorem stack_above_kept_iff {Φ : Type} (sym : Symbols) (m : Machine Φ) (n : UInt32) :
    m.KeepsStackAbove sym n ↔ m.NextWordsMatch n := by
  have hword : ∀ g : InterruptFrame,
      (∀ x, 68 ≤ Word32.sub x (m.entry n).cpu.esp.toNat →
        (g.store (m.entry n).mem (m.entry n).cpu.esp.toNat).read8 x = m.mem.read8 x) ↔
      m.mem.read32 m.cpu.esp.toNat = g.userEsp.toNat ∧
        m.mem.read32 (m.cpu.esp.toNat + 4) = g.userSs.toNat := by
    intro g
    have h0 := Machine.read32_entry m n (k := 0) (by omega)
    have h4 := Machine.read32_entry m n (k := 4) (by omega)
    simp only [Nat.add_zero] at h0
    rw [← h0, ← h4, ← Machine.store_keeps_iff]
    exact forall₂_congr fun x hx => by rw [Machine.read8_entry hx]
  constructor
  · intro h hfull i g hup hover hg
    obtain ⟨s, out, hs⟩ := Scheduler.exists_schedule hfull sym (m.entry n).cpu.esp.toNat (m.frame n)
    obtain ⟨_, _, hout⟩ := Scheduler.schedule_eq_ok hs
    rw [hup] at hout
    obtain ⟨_, ⟨_, hsaved⟩ | ⟨_, hout⟩⟩ := hout
    · rcases hsaved with h' | h'
      · rw [h'] at hover; cases hover
      · rw [h'] at hg; cases hg
    · rw [hg] at hout
      subst hout
      exact (hword g).1 (h s _ (Machine.scheduleIn_eq_ok.2 ⟨some g, hs, rfl⟩))
  · intro h s mem hin
    obtain ⟨out, hs, rfl⟩ := Machine.scheduleIn_eq_ok.1 hin
    obtain ⟨hfull, _, hout⟩ := Scheduler.schedule_eq_ok hs
    cases hup : m.sched.upcoming (m.frame n) with
    | none =>
      rw [hup] at hout
      subst hout
      exact fun x hx => Machine.read8_entry hx
    | some i =>
      rw [hup] at hout
      obtain ⟨hsome, ⟨rfl, _⟩ | ⟨hover, hctx⟩⟩ := hout
      · intro x hx
        rw [← Machine.read8_entry hx]
        exact Machine.store_frame_keeps m n x hx
      · obtain ⟨g, rfl⟩ := Option.isSome_iff_exists.1 hsome
        exact (hword g).2 (h hfull i g hup hover hctx.symm)

open CoreWorld in
/-- The boot context is interrupted with the word `0xcafe` on top of its stack; the "idle" task's
stale `user_esp` is written over it. -/
theorem boot_stack_overwritten : ∃ s,
    Scheduler.construct World.sampleSymbols 0x200200 0x1000000 (0, 0) = .ok s ∧
      ¬ Machine.KeepsStackAbove World.sampleSymbols
        ⟨sampleCpu 0x200010 0x302000 (), Mem.write32 (fun _ => 0) 0x302000 0xcafe, (), s⟩ 48 := by
  obtain ⟨⟨s, s', mem⟩, hw, hp⟩ := K.exists_of_holds
    (x := do
      let s ← Scheduler.construct World.sampleSymbols 0x200200 0x1000000 (0, 0)
      let r ← Machine.scheduleIn World.sampleSymbols
        ⟨sampleCpu 0x200010 0x302000 (), Mem.write32 (fun _ => 0) 0x302000 0xcafe, (), s⟩ 48
      return (s, r))
    (p := fun r => r.2.2.read8 0x302000 == 0) (by decide +kernel)
  simp only [K.bind_eq_ok] at hw
  obtain ⟨s₁, hs, r, hr, hp'⟩ := hw
  cases hp'
  refine ⟨s, hs, fun h => ?_⟩
  have hkeep : mem.read8 0x302000 = Mem.read8 (Mem.write32 (fun _ => 0) 0x302000 0xcafe) 0x302000 :=
    h s' mem hr 0x302000 (by
      rw [Machine.esp_entry]
      show 68 ≤ Word32.sub 0x302000 ((0x302000 : UInt32) - 68).toNat
      decide +kernel)
  rw [beq_iff_eq.1 hp] at hkeep
  exact absurd hkeep (by decide)

end Ospp
