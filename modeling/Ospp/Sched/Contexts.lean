import Ospp.Lib.Trans
import Ospp.Sched.Scheduler

/-!
# Contexts across scheduling

What a scheduler is for: each task, when it is resumed, continues with the registers it had when
it was last interrupted. `World` adds to the scheduler what an observer of the processor knows and
the scheduler does not: which task is executing, the frame every task was created with, and the
frame of its most recent interruption.

Before the first `schedule` the processor runs the boot context, which is no task yet
(`exec = none`); `schedule` turns it into the "kernel" task when it finds a single task in the
table. `contexts_kept_iff` says exactly when this works: a run keeps every context if and only if
its first `schedule`, if there is one, comes before any `create_task`.
-/

namespace Ospp

open Trans

/-- The calls a run is made of. `createTask` carries the stack the allocator returns and the stale
words of the slot, `schedule` the address and the contents of the interrupted frame. -/
inductive SchedAct where
  | createTask (name : String) (entryPoint : UInt32) (stackBase : ℕ) (stale : UInt32 × UInt32)
  | schedule (ctx : ℕ) (f : InterruptFrame)

namespace SchedAct

def isSchedule : SchedAct → Bool
  | createTask .. => false
  | schedule .. => true

end SchedAct

/-- The scheduler, with the history an observer keeps. -/
structure World where
  sched : Scheduler
  /-- The slot of the task that is executing; `none` for the boot context. -/
  exec : Option ℕ
  /-- The frame a slot's task was created with. -/
  initial : ℕ → Option InterruptFrame
  /-- The frame of a slot's most recent interruption. -/
  last : ℕ → Option InterruptFrame

namespace World

/-- The world right after `Scheduler::Scheduler`. -/
def boot (s : Scheduler) : World := ⟨s, none, s.ctxOf, fun _ => none⟩

/-- A slot that was free before the call and is occupied after it. -/
def newSlot (s s' : Scheduler) : Option ℕ :=
  (List.range taskCapacity).find? fun i => s'.tasks.occupied i && !s.tasks.occupied i

/-- The slot standing for what was executing (`exec`) when the call that led from `s` to `s'` was
made. The boot context stands in the slot that this call filled. -/
def interruptedSlot (exec : Option ℕ) (s s' : Scheduler) : Option ℕ :=
  match exec with
  | some i => some i
  | none => newSlot s s'

/-- The slot interrupted by the call that led to `s'`. -/
def interrupted (w : World) (s' : Scheduler) : Option ℕ := interruptedSlot w.exec w.sched s'

/-- The frame a slot's task has to be resumed with. -/
def due (w : World) (i : ℕ) : Option InterruptFrame := (w.last i).or (w.initial i)

/-- Record the interruption of slot `i?` with frame `f`. -/
def record (last : ℕ → Option InterruptFrame) (i? : Option ℕ) (f : InterruptFrame) :
    ℕ → Option InterruptFrame :=
  fun j => if i? = some j then some f else last j

/-- One call. -/
def step (sym : Symbols) (w : World) : SchedAct → K World
  | .createTask name entry base stale => do
    let (s, i) ← w.sched.createTask sym name entry base stale
    return { w with
      sched := s, initial := fun j => if j = i then s.ctxOf i else w.initial j }
  | .schedule ctx f => do
    let (s, _) ← w.sched.schedule sym ctx f
    return { w with
      sched := s, exec := some s.currentTaskIndex, last := record w.last (w.interrupted s) f }

/-- The step relation of a run. -/
def Step (sym : Symbols) (w : World) (a : SchedAct) (w' : World) : Prop := w.step sym a = .ok w'

theorem Step.det {sym : Symbols} {w w₁ w₂ : World} {a : SchedAct} (h₁ : w.Step sym a w₁)
    (h₂ : w.Step sym a w₂) : w₂ = w₁ := by
  unfold Step at h₁ h₂
  rw [h₁] at h₂
  cases h₂
  rfl

/-- The interrupted frame is stored in exactly one task, the one that was executing, and the task
selected resumes with the frame it is due: that of its most recent interruption, or its initial
one. -/
def KeepsContexts (sym : Symbols) (w : World) : SchedAct → Prop
  | .createTask .. => True
  | .schedule ctx f => ∀ s out, w.sched.schedule sym ctx f = .ok (s, out) →
    (∃ e, w.interrupted s = some e ∧ s.ctxOf e = some f ∧
      ∀ j, j ≠ e → s.ctxOf j = w.sched.ctxOf j) ∧
    some (out.getD f) = (record w.last (w.interrupted s) f s.currentTaskIndex).or
      (w.initial s.currentTaskIndex)

/-- The boot context is saved first: `schedule` is called before any `create_task`, or never. -/
def bootFirst : List SchedAct → Bool
  | [] => true
  | .schedule .. :: _ => true
  | .createTask .. :: as => !as.any SchedAct.isSchedule

/-! ## The invariant -/

/-- Every stored frame, but that of the task executing, is the one due to its slot; the task
executing is the `RUNNING` one at `current_task_index`. -/
structure Inv (w : World) : Prop where
  initialized : w.sched.initialized = true
  live : 1 < w.sched.tasks.liveCount
  exec : w.exec = some w.sched.currentTaskIndex
  running : ∃ t, w.sched.tasks.ptr w.sched.currentTaskIndex = some t ∧ t.state = .running
  due : ∀ j, j ≠ w.sched.currentTaskIndex → w.sched.ctxOf j = w.due j

theorem schedule_eq {sym : Symbols} {s : Scheduler} {ctx : ℕ} {f : InterruptFrame}
    {p : Scheduler × Option InterruptFrame} (hi : s.initialized = true)
    (hl : s.tasks.liveCount ≠ 0) :
    s.schedule sym ctx f = .ok p ↔ ∃ s', s.saveCurrent sym ctx f = .ok s' ∧ p = s'.selectNext := by
  unfold Scheduler.schedule
  rw [if_neg (by simp [hi, hl]), K.bind_eq_ok]
  constructor
  · rintro ⟨s', h, hp⟩; cases hp; exact ⟨s', h, rfl⟩
  · rintro ⟨s', h, rfl⟩; exact ⟨s', h, rfl⟩

/-- Storing the interrupted frame and selecting the next task, seen through the stored frames: `e`
is the slot saved. -/
theorem keeps_of_saved {sym : Symbols} {w : World} {ctx : ℕ} {f : InterruptFrame} {e : ℕ}
    {s' : Scheduler} (hi : w.sched.initialized = true) (hl : w.sched.tasks.liveCount ≠ 0)
    (hsave : w.sched.saveCurrent sym ctx f = .ok s')
    (hint : w.interrupted s'.selectNext.1 = some e)
    (hcur : ∃ t, s'.tasks.ptr s'.currentTaskIndex = some t ∧ t.ctx = f)
    (hf : s'.ctxOf e = some f) (hother : ∀ j, j ≠ e → s'.ctxOf j = w.sched.ctxOf j)
    (hdue : ∀ j, j ≠ e → w.sched.ctxOf j = w.due j) :
    w.KeepsContexts sym (.schedule ctx f) := by
  intro s out hs
  obtain ⟨s1, hs1, hp⟩ := (schedule_eq hi hl).1 hs
  have : s1 = s' := by rw [hsave] at hs1; cases hs1; rfl
  subst this
  obtain ⟨rfl, rfl⟩ := Prod.ext_iff.1 hp
  refine ⟨⟨e, hint, ?_, fun j hj => ?_⟩, ?_⟩
  · rw [Scheduler.ctxOf_selectNext, hf]
  · rw [Scheduler.ctxOf_selectNext, hother j hj]
  · -- the resumed frame is the stored one, and the stored one is due
    obtain ⟨t, ht, htf⟩ := hcur
    obtain ⟨t', ht', _, hctx⟩ := Scheduler.selectNext_running ht
    have hstored : s1.ctxOf s1.selectNext.1.currentTaskIndex = some (s1.selectNext.2.getD f) := by
      rw [← Scheduler.ctxOf_selectNext, Scheduler.ctxOf, ht', Option.map_some, hctx, htf]
    rw [hint, ← hstored]
    unfold record
    by_cases hj : s1.selectNext.1.currentTaskIndex = e
    · rw [if_pos (by rw [hj]), hj, hf]; rfl
    · rw [if_neg (fun h => hj (Option.some.inj h).symm), hother _ hj, hdue _ hj]; rfl

/-- The invariant after `schedule`, from the state right after the frame was stored in `e`. -/
theorem inv_of_saved {w : World} {f : InterruptFrame} {e : ℕ} {s' : Scheduler}
    (hi : s'.initialized = true) (hl : 1 < s'.tasks.liveCount)
    (hint : w.interrupted s'.selectNext.1 = some e)
    (hcur : ∃ t, s'.tasks.ptr s'.currentTaskIndex = some t)
    (hf : s'.ctxOf e = some f) (hother : ∀ j, j ≠ e → s'.ctxOf j = w.sched.ctxOf j)
    (hdue : ∀ j, j ≠ e → w.sched.ctxOf j = w.due j) :
    Inv { w with
      sched := s'.selectNext.1
      exec := some s'.selectNext.1.currentTaskIndex
      last := record w.last (w.interrupted s'.selectNext.1) f } := by
  obtain ⟨t, ht⟩ := hcur
  obtain ⟨t', ht', hrun, _⟩ := Scheduler.selectNext_running ht
  refine ⟨?_, ?_, rfl, ⟨t', ht', hrun⟩, fun j _ => ?_⟩
  · show s'.selectNext.1.initialized = true
    rw [Scheduler.initialized_selectNext, hi]
  · show 1 < s'.selectNext.1.tasks.liveCount
    rw [Scheduler.liveCount_selectNext]; exact hl
  · show s'.selectNext.1.ctxOf j = (record w.last _ f j).or (w.initial j)
    rw [Scheduler.ctxOf_selectNext, hint]
    unfold record
    by_cases hj : j = e
    · rw [if_pos (by rw [hj]), hj, hf]; rfl
    · rw [if_neg (fun h => hj (Option.some.inj h).symm), hother j hj, hdue j hj]; rfl

/-! ## The steps of a run -/

theorem interrupted_of_inv {w : World} (h : Inv w) (s' : Scheduler) :
    w.interrupted s' = some w.sched.currentTaskIndex := by
  unfold interrupted interruptedSlot; rw [h.exec]

/-- Creating a task keeps the invariant. -/
theorem inv_createTask {sym : Symbols} {w w' : World} {name : String} {entry : UInt32} {base : ℕ}
    {stale : UInt32 × UInt32} (h : Inv w)
    (hs : w.Step sym (.createTask name entry base stale) w') : Inv w' := by
  unfold Step step at hs
  rw [K.bind_eq_ok] at hs
  obtain ⟨⟨s, i⟩, hc, hs⟩ := hs
  cases hs
  obtain ⟨hfree, _, hother, hcount, hidx, hinit⟩ := Scheduler.createTask_eq_ok hc
  obtain ⟨t, ht, hrun⟩ := h.running
  have hne : w.sched.currentTaskIndex ≠ i := by rintro rfl; rw [ht] at hfree; cases hfree
  refine ⟨by rw [← h.initialized, ← hinit], ?_, ?_, ⟨t, ?_, hrun⟩, fun j hj => ?_⟩
  · show 1 < s.tasks.liveCount
    have := h.live
    omega
  · show w.exec = some s.currentTaskIndex
    rw [h.exec, hidx]
  · show s.tasks.ptr s.currentTaskIndex = some t
    rw [hidx, hother _ hne, ht]
  · show s.ctxOf j = (w.last j).or (if j = i then s.ctxOf i else w.initial j)
    have hj' : j ≠ w.sched.currentTaskIndex := by rw [← hidx]; exact hj
    have hd := h.due j hj'
    by_cases hji : j = i
    · -- the slot was free: no interruption is recorded for it
      subst hji
      have hn : w.due j = none := by rw [← hd, Scheduler.ctxOf, hfree]; rfl
      have hl : w.last j = none := by
        unfold due at hn
        cases hlast : w.last j with
        | none => rfl
        | some g => rw [hlast] at hn; cases hn
      rw [if_pos rfl, hl]; rfl
    · rw [if_neg hji, Scheduler.ctxOf, hother j hji]
      exact hd

/-- A `schedule` from a state of the invariant: what `saveCurrent` leaves. -/
theorem saved_of_inv {sym : Symbols} {w : World} {ctx : ℕ} {f : InterruptFrame} {s' : Scheduler}
    (h : Inv w) (hs : w.sched.saveCurrent sym ctx f = .ok s') :
    s'.initialized = true ∧ 1 < s'.tasks.liveCount ∧
      (∃ t, s'.tasks.ptr s'.currentTaskIndex = some t ∧ t.ctx = f) ∧
      s'.ctxOf w.sched.currentTaskIndex = some f ∧
      ∀ j, j ≠ w.sched.currentTaskIndex → s'.ctxOf j = w.sched.ctxOf j := by
  obtain ⟨t, ht, hrun⟩ := h.running
  obtain ⟨hidx, hlive, hinit, ⟨t', ht', hf⟩, hother⟩ :=
    Scheduler.saveCurrent_running h.live ht hrun hs
  refine ⟨by rw [hinit, h.initialized], by rw [hlive]; exact h.live,
    ⟨t', by rw [hidx, ht'], hf⟩, ?_, fun j hj => ?_⟩
  · rw [Scheduler.ctxOf, ht', Option.map_some, hf]
  · rw [Scheduler.ctxOf, hother j hj]; rfl

theorem keeps_of_inv {sym : Symbols} {w : World} (h : Inv w) (a : SchedAct) :
    w.KeepsContexts sym a := by
  cases a with
  | createTask => trivial
  | schedule ctx f =>
    intro s out hs
    have hl : w.sched.tasks.liveCount ≠ 0 := by have := h.live; omega
    obtain ⟨s', hs', _⟩ := (schedule_eq h.initialized hl).1 hs
    obtain ⟨_, _, hcur, hf, hother⟩ := saved_of_inv h hs'
    exact keeps_of_saved h.initialized hl hs' (interrupted_of_inv h _) hcur hf hother h.due s out hs

theorem inv_step {sym : Symbols} {w w' : World} (h : Inv w) (a : SchedAct)
    (hs : w.Step sym a w') : Inv w' := by
  cases a with
  | createTask => exact inv_createTask h hs
  | schedule ctx f =>
    unfold Step step at hs
    rw [K.bind_eq_ok] at hs
    obtain ⟨⟨s, out⟩, hsch, hs⟩ := hs
    cases hs
    have hl : w.sched.tasks.liveCount ≠ 0 := by have := h.live; omega
    obtain ⟨s', hs', hp⟩ := (schedule_eq h.initialized hl).1 hsch
    obtain ⟨rfl, rfl⟩ := Prod.ext_iff.1 hp
    obtain ⟨hi, hlive, ⟨t, ht, _⟩, hf, hother⟩ := saved_of_inv h hs'
    exact inv_of_saved hi hlive (interrupted_of_inv h _) ⟨t, ht⟩ hf hother h.due

/-! ## The first call -/

/-- The scheduler as its constructor leaves it. -/
structure Fresh (s : Scheduler) : Prop where
  live : s.tasks.liveCount = 1
  index : s.currentTaskIndex = 0
  initialized : s.initialized = true
  idle : ∃ t, s.tasks.ptr 0 = some t ∧ t.state = .ready
  free : ∀ j, j ≠ 0 → s.tasks.ptr j = none

theorem fresh_of_construct {sym : Symbols} {idleEntry : UInt32} {base : ℕ}
    {stale : UInt32 × UInt32} {s : Scheduler}
    (h : Scheduler.construct sym idleEntry base stale = .ok s) : Fresh s := by
  obtain ⟨h1, h2, h3, h4, h5⟩ := Scheduler.construct_eq_ok h
  exact ⟨h1, h2, h3, h4, h5⟩

theorem find_range_eq {N k : ℕ} {p : ℕ → Bool} (hk : k < N) (hp : p k = true)
    (h : ∀ j < k, p j = false) : (List.range N).find? p = some k := by
  rw [List.find?_range_eq_some]
  exact ⟨hp, List.mem_range.2 hk, fun j hj => by simp [h j hj]⟩

/-- From a fresh scheduler the boot context is stored in slot `1`. -/
theorem saved_of_fresh {sym : Symbols} {s s' : Scheduler} {ctx : ℕ} {f : InterruptFrame}
    (h : Fresh s) (hs : s.saveCurrent sym ctx f = .ok s') :
    s'.initialized = true ∧ 1 < s'.tasks.liveCount ∧ s'.currentTaskIndex = 1 ∧
      (∃ t, s'.tasks.ptr 1 = some t ∧ t.ctx = f) ∧
      ∀ j, j ≠ 1 → s'.tasks.ptr j = s.tasks.ptr j := by
  obtain ⟨i, hi, hfree, he, hidx, hinit⟩ := Scheduler.saveCurrent_boot (by rw [h.live]) hs
  have hslot : s.tasks.findFreeSlot = some 1 := by
    apply find_range_eq (by decide)
    · simp [StaticArray.occupied, h.free 1]
    · intro j hj
      obtain ⟨t, ht, _⟩ := h.idle
      obtain rfl : j = 0 := by omega
      simp [StaticArray.occupied, ht]
  have hi1 : i = 1 := by
    unfold StaticArray.emplace at he
    rw [hslot] at he
    simp only [Except.ok.injEq, Prod.mk.injEq] at he
    exact he.2.symm
  subst hi1
  obtain ⟨_, _, hnew, hother, hcount⟩ := StaticArray.emplace_eq_ok he
  exact ⟨by rw [hinit, h.initialized], by rw [hcount, h.live]; omega, hidx,
    ⟨_, hnew, rfl⟩, hother⟩

theorem newSlot_of_fresh {s s' : Scheduler} (h : Fresh s) (hnew : s'.tasks.occupied 1 = true) :
    newSlot s s' = some 1 := by
  apply find_range_eq (by decide)
  · rw [hnew]
    simp [StaticArray.occupied, h.free 1]
  · intro j hj
    obtain ⟨t, ht, _⟩ := h.idle
    obtain rfl : j = 0 := by omega
    simp [StaticArray.occupied, ht]

/-- The boot world, one `schedule` ahead. -/
theorem boot_schedule {sym : Symbols} {s s' : Scheduler} {ctx : ℕ} {f : InterruptFrame}
    (h : Fresh s) (hs : s.saveCurrent sym ctx f = .ok s') :
    (boot s).interrupted s'.selectNext.1 = some 1 ∧
      (∀ j, j ≠ 1 → s'.ctxOf j = (boot s).sched.ctxOf j) ∧ s'.ctxOf 1 = some f ∧
      ∀ j, j ≠ 1 → (boot s).sched.ctxOf j = (boot s).due j := by
  obtain ⟨_, _, _, ⟨t, ht, hf⟩, hother⟩ := saved_of_fresh h hs
  refine ⟨?_, fun j hj => ?_, ?_, fun j _ => rfl⟩
  · show newSlot s s'.selectNext.1 = some 1
    apply newSlot_of_fresh h
    have hc : s'.selectNext.1.ctxOf 1 = some t.ctx := by
      rw [Scheduler.ctxOf_selectNext, Scheduler.ctxOf, ht]; rfl
    unfold Scheduler.ctxOf at hc
    rw [Option.map_eq_some_iff] at hc
    obtain ⟨u, hu, _⟩ := hc
    exact StaticArray.occupied_iff.2 ⟨u, hu⟩
  · rw [Scheduler.ctxOf, hother j hj]; rfl
  · rw [Scheduler.ctxOf, ht, Option.map_some, hf]

theorem keeps_boot_schedule {sym : Symbols} {s : Scheduler} (h : Fresh s) (ctx : ℕ)
    (f : InterruptFrame) : (boot s).KeepsContexts sym (.schedule ctx f) := by
  intro s1 out hs
  have hl : s.tasks.liveCount ≠ 0 := by rw [h.live]; omega
  obtain ⟨s', hs', _⟩ := (schedule_eq h.initialized hl).1 hs
  obtain ⟨hint, hother, hf, hdue⟩ := boot_schedule h hs'
  obtain ⟨_, _, hidx, ⟨t, ht, htf⟩, _⟩ := saved_of_fresh h hs'
  exact keeps_of_saved (w := boot s) h.initialized hl hs' hint ⟨t, by rw [hidx, ht], htf⟩ hf hother
    hdue s1 out hs

theorem inv_boot_schedule {sym : Symbols} {s : Scheduler} {w' : World} (h : Fresh s) {ctx : ℕ}
    {f : InterruptFrame} (hs : (boot s).Step sym (.schedule ctx f) w') : Inv w' := by
  unfold Step step at hs
  rw [K.bind_eq_ok] at hs
  obtain ⟨⟨s1, out⟩, hsch, hs⟩ := hs
  cases hs
  have hl : s.tasks.liveCount ≠ 0 := by rw [h.live]; omega
  obtain ⟨s', hs', hp⟩ := (schedule_eq h.initialized hl).1 hsch
  obtain ⟨rfl, rfl⟩ := Prod.ext_iff.1 hp
  obtain ⟨hint, hother, hf, hdue⟩ := boot_schedule h hs'
  obtain ⟨hi, hlive, hidx, ⟨t, ht, _⟩, _⟩ := saved_of_fresh h hs'
  exact inv_of_saved (w := boot s) hi hlive hint ⟨t, by rw [hidx, ht]⟩ hf hother hdue

/-! ## Tasks created before the first call -/

/-- Tasks have been created and `schedule` has not run: "idle" is still at `current_task_index`,
`READY`, and the boot context is executing. -/
structure Unsaved (w : World) : Prop where
  live : 1 < w.sched.tasks.liveCount
  index : w.sched.currentTaskIndex = 0
  initialized : w.sched.initialized = true
  idle : ∃ t, w.sched.tasks.ptr 0 = some t ∧ t.state = .ready
  exec : w.exec = none

/-- `createTask` leads to, and stays in, `Unsaved` as long as `schedule` is not called. -/
theorem unsaved_createTask {sym : Symbols} {w w' : World} {name : String} {entry : UInt32}
    {base : ℕ} {stale : UInt32 × UInt32} (hlive : 1 ≤ w.sched.tasks.liveCount)
    (hidx : w.sched.currentTaskIndex = 0) (hinit : w.sched.initialized = true)
    (hidle : ∃ t, w.sched.tasks.ptr 0 = some t ∧ t.state = .ready) (hexec : w.exec = none)
    (hs : w.Step sym (.createTask name entry base stale) w') : Unsaved w' := by
  unfold Step step at hs
  rw [K.bind_eq_ok] at hs
  obtain ⟨⟨s, i⟩, hc, hs⟩ := hs
  cases hs
  obtain ⟨hfree, _, hother, hcount, hi, hin⟩ := Scheduler.createTask_eq_ok hc
  obtain ⟨t, ht, hr⟩ := hidle
  have hne : 0 ≠ i := by rintro rfl; rw [ht] at hfree; cases hfree
  refine ⟨?_, by rw [← hidx, ← hi], by rw [← hinit, ← hin], ⟨t, ?_, hr⟩, hexec⟩
  · show 1 < s.tasks.liveCount
    omega
  · show s.tasks.ptr 0 = some t
    rw [hother 0 hne, ht]

/-- The boot context is lost: `schedule` stores the interrupted frame nowhere. -/
theorem not_keeps_of_unsaved {sym : Symbols} {w : World} (h : Unsaved w) (ctx : ℕ)
    (f : InterruptFrame) : ¬ w.KeepsContexts sym (.schedule ctx f) := by
  intro hk
  obtain ⟨t, ht, hr⟩ := h.idle
  have hl : w.sched.tasks.liveCount ≠ 0 := by have := h.live; omega
  have hsave : w.sched.saveCurrent sym ctx f = .ok w.sched :=
    Scheduler.saveCurrent_not_running h.live (by rw [h.index, ht]) (by rw [hr]; decide)
  have hsch : w.sched.schedule sym ctx f = .ok (w.sched.selectNext.1, w.sched.selectNext.2) :=
    (schedule_eq h.initialized hl).2 ⟨_, hsave, rfl⟩
  obtain ⟨⟨e, he, _⟩, _⟩ := hk _ _ hsch
  -- no slot has been filled by the call
  unfold interrupted interruptedSlot at he
  rw [h.exec] at he
  have hocc := List.find?_some he
  simp only [Bool.and_eq_true, Bool.not_eq_true'] at hocc
  have hsame : w.sched.selectNext.1.tasks.occupied e = w.sched.tasks.occupied e := by
    have := Scheduler.ctxOf_selectNext w.sched e
    unfold Scheduler.ctxOf at this
    unfold StaticArray.occupied
    rw [← Option.isSome_map (f := Task.ctx), this, Option.isSome_map]
  rw [hsame] at hocc
  rw [hocc.1] at hocc
  cases hocc.2

theorem along_unsaved {sym : Symbols} : ∀ {as : List SchedAct} {w w' : World}, Unsaved w →
    Run (Step sym) w as w' → (Along (Step sym) (KeepsContexts sym) w as ↔
      as.any SchedAct.isSchedule = false) := by
  intro as
  induction as with
  | nil => intro w w' _ _; simp [Along]
  | cons a as ih =>
    intro w w' h hrun
    obtain ⟨w1, hs, hrun'⟩ := run_cons_iff.1 hrun
    rw [along_cons_iff hs fun _ => hs.det]
    cases a with
    | schedule ctx f =>
      constructor
      · intro hk; exact absurd hk.1 (not_keeps_of_unsaved h ctx f)
      · intro hn; simp [SchedAct.isSchedule] at hn
    | createTask name entry base stale =>
      have hlive := h.live
      have h1 := unsaved_createTask (by omega) h.index h.initialized h.idle h.exec hs
      rw [ih h1 hrun', List.any_cons]
      simp [SchedAct.isSchedule, KeepsContexts]

/-- A frame with every word zero. -/
def zeroFrame : InterruptFrame := ⟨0, 0, 0, 0, 0, 0, 0, 0, 0, 0, 0, 0, 0, 0, 0, 0, 0, 0, 0⟩

/-- Addresses for runs on concrete values. -/
def sampleSymbols : Symbols := ⟨0x200000, 0x200100, 0x300000⟩

end World

open World in
/-- **No lost or mixed-up context.** A run of `create_task` and `schedule` calls keeps every
context if and only if `schedule` is first called before any task is created, or never. -/
theorem contexts_kept_iff {sym : Symbols} {idleEntry : UInt32} {base : ℕ}
    {stale : UInt32 × UInt32} {s : Scheduler}
    (hs : Scheduler.construct sym idleEntry base stale = .ok s) {as : List SchedAct} {w : World}
    (hrun : Run (World.Step sym) (World.boot s) as w) :
    Along (World.Step sym) (World.KeepsContexts sym) (World.boot s) as ↔
      World.bootFirst as = true := by
  have hfresh := fresh_of_construct hs
  cases as with
  | nil => simp [Along, bootFirst]
  | cons a as =>
    obtain ⟨w1, hstep, hrun'⟩ := run_cons_iff.1 hrun
    cases a with
    | schedule ctx f =>
      refine ⟨fun _ => rfl, fun _ => ⟨keeps_boot_schedule hfresh ctx f, fun w2 h2 => ?_⟩⟩
      exact Along.of_invariant (I := Inv) (C := fun _ _ => True)
        (fun w a w' h _ h' => inv_step h a h') (fun w a h _ => keeps_of_inv h a)
        (inv_boot_schedule hfresh h2) (along_true as w2)
    | createTask name entry base stale =>
      have h1 : Unsaved w1 := unsaved_createTask (by show 1 ≤ s.tasks.liveCount; rw [hfresh.live])
        hfresh.index hfresh.initialized hfresh.idle rfl hstep
      rw [along_cons_iff hstep fun _ => hstep.det, along_unsaved h1 hrun']
      simp [bootFirst, KeepsContexts]

set_option maxRecDepth 4000 in
open World in
/-- The run that yields right after construction keeps its contexts: the boot frame is resumed by
the second `schedule`. -/
theorem contexts_kept_after_yield : ∃ s w,
    Scheduler.construct sampleSymbols 0x200200 0x1000000 (0, 0) = .ok s ∧
      Run (World.Step sampleSymbols) (World.boot s)
        [.schedule 0x3000 zeroFrame, .createTask "a" 0x200300 0x1002000 (0, 0),
          .schedule 0x3000 zeroFrame] w ∧
      Along (World.Step sampleSymbols) (World.KeepsContexts sampleSymbols) (World.boot s)
        [.schedule 0x3000 zeroFrame, .createTask "a" 0x200300 0x1002000 (0, 0),
          .schedule 0x3000 zeroFrame] := by
  refine ⟨_, _, rfl, .cons rfl (.cons rfl (.cons rfl (.nil _))), ?_⟩
  exact (@contexts_kept_iff sampleSymbols 0x200200 0x1000000 (0, 0) _ rfl
    [.schedule 0x3000 zeroFrame, .createTask "a" 0x200300 0x1002000 (0, 0),
      .schedule 0x3000 zeroFrame] _ (.cons rfl (.cons rfl (.cons rfl (.nil _))))).2 rfl

set_option maxRecDepth 4000 in
open World in
/-- A task created before the first `schedule` makes that call lose the boot context. -/
theorem boot_context_lost : ∃ s w,
    Scheduler.construct sampleSymbols 0x200200 0x1000000 (0, 0) = .ok s ∧
      Run (World.Step sampleSymbols) (World.boot s)
        [.createTask "a" 0x200300 0x1002000 (0, 0), .schedule 0x3000 zeroFrame] w ∧
      ¬ Along (World.Step sampleSymbols) (World.KeepsContexts sampleSymbols) (World.boot s)
        [.createTask "a" 0x200300 0x1002000 (0, 0), .schedule 0x3000 zeroFrame] := by
  refine ⟨_, _, rfl, .cons rfl (.cons rfl (.nil _)), fun h => ?_⟩
  refine not_keeps_of_unsaved ?_ _ _ (h.2 _ rfl).1
  exact ⟨by decide, rfl, rfl, ⟨_, rfl, rfl⟩, rfl⟩

end Ospp
