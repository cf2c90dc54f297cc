import Ospp.Lib.Cyclic
import Ospp.Sched.Contexts

/-!
# The states of the tasks, and the order of selection

The scheduler as a state machine on the states of its slots. `schedule_states` says once what a call
of `schedule` does to them, from the state before the call: the interrupted frame is accounted for
(`savedState`), and then the first `READY` slot behind the current one is set to `RUNNING`.

Two results over runs follow. As long as "idle" does not terminate, one task is `RUNNING` after
every `schedule`, the walk always finds a `READY` task, and `TERMINATED` is final
(`states_orderly`). And selection is round robin: the walk takes the first `READY` slot, and while a
task waits no other is selected twice (`round_robin`).
-/

namespace Ospp

open Trans

namespace Scheduler

/-! ## States of slots -/

/-- The state of the task in a slot. -/
def stateOf (s : Scheduler) (j : ℕ) : Option TaskState := (s.tasks.ptr j).map Task.state

theorem isReady_eq (s : Scheduler) (j : ℕ) : s.isReady j = (s.stateOf j == some .ready) := by
  unfold isReady stateOf
  cases s.tasks.ptr j with
  | none => rfl
  | some t => cases h : t.state <;> simp [h]

/-- The state of slot `j` once the interrupted frame `f` has been saved. -/
def savedState (s : Scheduler) (f : InterruptFrame) (j : ℕ) : Option TaskState :=
  if s.tasks.liveCount ≤ 1 then
    if s.tasks.findFreeSlot = some j then some .ready else s.stateOf j
  else if s.savesOver j then some (if diedIn f then .terminated else .ready)
  else s.stateOf j

theorem stateOf_saveCurrent {sym : Symbols} {s s' : Scheduler} {ctx : ℕ} {f : InterruptFrame}
    (h : s.saveCurrent sym ctx f = .ok s') (j : ℕ) : s'.stateOf j = s.savedState f j := by
  unfold savedState
  by_cases hlive : s.tasks.liveCount ≤ 1
  · obtain ⟨k, _, _, he, _, _⟩ := saveCurrent_boot hlive h
    obtain ⟨_, hfree, hnew, hother, _⟩ := StaticArray.emplace_eq_ok he
    rw [if_pos hlive, StaticArray.findFreeSlot_of_emplace he]
    by_cases hjk : j = k
    · rw [hjk, if_pos rfl, stateOf, hnew]
      rfl
    · rw [if_neg fun e => hjk (Option.some.inj e).symm, stateOf, hother j hjk]
      rfl
  · rw [if_neg hlive]
    rcases saveCurrent_cases hlive h with ⟨hsave, rfl⟩ | ⟨hno, rfl⟩
    · unfold stateOf
      rw [StaticArray.ptr_modify]
      by_cases hj : j = s.currentTaskIndex
      · obtain ⟨_, _, t, ht, _⟩ := savesOver_iff.1 hsave
        rw [hj, if_pos rfl, hsave, if_pos rfl, ht]
        rfl
      · have hno : s.savesOver j = false := by simp [savesOver, hj]
        rw [if_neg hj, hno, if_neg Bool.false_ne_true]
    · rw [hno j, if_neg Bool.false_ne_true]

theorem readyAfter_eq (s : Scheduler) (f : InterruptFrame) (j : ℕ) :
    s.readyAfter f j = (s.savedState f j == some .ready) := by
  unfold readyAfter savedState
  by_cases hlive : s.tasks.liveCount ≤ 1
  · rw [if_pos hlive, if_pos hlive]
    by_cases hj : s.tasks.findFreeSlot = some j
    · rw [if_pos hj, decide_eq_true hj]
      rfl
    · rw [if_neg hj, decide_eq_false hj, isReady_eq]
      rfl
  · rw [if_neg hlive, if_neg hlive]
    cases s.savesOver j with
    | true => cases diedIn f <;> rfl
    | false => exact isReady_eq s j

/-! ## The walk -/

/-- The walk from `k` slots behind `start`. -/
theorem searchReady_spec (ready : ℕ → Bool) (start : ℕ) :
    ∀ {fuel k cur : ℕ}, k + fuel = taskCapacity → cur = (start + k) % taskCapacity →
      match searchReady ready start fuel cur with
      | none => ∀ d, k < d → d ≤ taskCapacity → ready ((start + d) % taskCapacity) = false
      | some i => ∃ d, k < d ∧ d ≤ taskCapacity ∧ i = (start + d) % taskCapacity ∧
          ready i = true ∧
          ∀ e, k < e → e < d → ready ((start + e) % taskCapacity) = false := by
  intro fuel
  induction fuel with
  | zero =>
    intro k cur hk hcur d hd hdN
    omega
  | succ fuel ih =>
    intro k cur hk hcur
    have hnext : (cur + 1) % taskCapacity = (start + (k + 1)) % taskCapacity := by
      rw [hcur]
      unfold taskCapacity
      omega
    rw [searchReady, hnext]
    cases hr : ready ((start + (k + 1)) % taskCapacity) with
    | true =>
      rw [if_pos rfl]
      exact ⟨k + 1, by omega, by omega, rfl, hr, fun e h1 h2 => by omega⟩
    | false =>
      rw [if_neg Bool.false_ne_true]
      by_cases hback : (start + (k + 1)) % taskCapacity = start
      · rw [if_pos hback]
        intro d hd hdN
        have : d = k + 1 := by
          unfold taskCapacity at *
          omega
        rw [this, hr]
      · rw [if_neg hback]
        have hrec := @ih (k + 1) ((start + (k + 1)) % taskCapacity) (by omega) rfl
        cases hsr : searchReady ready start fuel ((start + (k + 1)) % taskCapacity) with
        | none =>
          rw [hsr] at hrec
          intro d hd hdN
          by_cases hdk : d = k + 1
          · rw [hdk, hr]
          · exact hrec d (by omega) hdN
        | some i =>
          rw [hsr] at hrec
          obtain ⟨d, h1, h2, h3, h4, h5⟩ := hrec
          refine ⟨d, by omega, h2, h3, h4, fun e he1 he2 => ?_⟩
          by_cases hek : e = k + 1
          · rw [hek, hr]
          · exact h5 e (by omega) he2

/-- **The walk** takes the first `READY` slot behind `start`, and finds one if there is one. -/
theorem searchReady_first (ready : ℕ → Bool) {start : ℕ} (hs : start < taskCapacity) :
    match searchReady ready start taskCapacity start with
    | none => ∀ j < taskCapacity, ready j = false
    | some i => i < taskCapacity ∧ ready i = true ∧ ∀ j < taskCapacity, ready j = true →
        Cyclic.after taskCapacity start i ≤ Cyclic.after taskCapacity start j := by
  have hcur : start = (start + 0) % taskCapacity := by rw [Nat.add_zero, Nat.mod_eq_of_lt hs]
  have hspec := searchReady_spec ready start (Nat.zero_add taskCapacity) hcur
  cases hsr : searchReady ready start taskCapacity start with
  | none =>
    rw [hsr] at hspec
    intro j hj
    have := hspec (Cyclic.after taskCapacity start j + 1) (by omega)
      (by have := Cyclic.after_lt hs hj; omega)
    rwa [Cyclic.add_after hs hj] at this
  | some i =>
    rw [hsr] at hspec
    obtain ⟨d, h1, h2, rfl, h4, h5⟩ := hspec
    refine ⟨Nat.mod_lt _ (by decide), h4, fun j hj hr => ?_⟩
    by_contra hlt
    have hd := Cyclic.after_add hs h1 h2
    have := h5 (Cyclic.after taskCapacity start j + 1) (by omega) (by omega)
    rw [Cyclic.add_after hs hj, hr] at this
    cases this

/-! ## One call -/

/-- **`schedule` and the states.** The slots after the call, from the state before it. -/
theorem schedule_states {sym : Symbols} {s s' : Scheduler} {ctx : ℕ} {f : InterruptFrame}
    {out : Option InterruptFrame} (ha : s.inactive = false)
    (h : s.schedule sym ctx f = .ok (s', out)) :
    s'.currentTaskIndex = s.resumedSlot f ∧ s'.initialized = s.initialized ∧
      s.tasks.liveCount ≤ s'.tasks.liveCount ∧ 1 < s'.tasks.liveCount ∧
      ∀ j, s'.stateOf j = if j = s.resumedSlot f then (s.savedState f j).map fun _ => .running
        else s.savedState f j := by
  have hcur := (schedule_eq_ok h).2.1
  unfold schedule at h
  change (if s.inactive then _ else _) = _ at h
  rw [ha, if_neg Bool.false_ne_true, K.bind_eq_ok] at h
  obtain ⟨s₁, hsave, hout⟩ := h
  obtain rfl : s₁.selectNext.1 = s' := congrArg Prod.fst (Except.ok.inj hout)
  have hinit : s₁.initialized = s.initialized ∧ s.tasks.liveCount ≤ s₁.tasks.liveCount ∧
      1 < s₁.tasks.liveCount := by
    by_cases hlive : s.tasks.liveCount ≤ 1
    · obtain ⟨_, _, _, he, _, hi⟩ := saveCurrent_boot hlive hsave
      obtain ⟨_, _, _, _, hcount⟩ := StaticArray.emplace_eq_ok he
      have hpos : s.tasks.liveCount ≠ 0 := by
        intro h0
        unfold inactive at ha
        rw [h0] at ha
        simp at ha
      exact ⟨hi, by omega, by omega⟩
    · rcases saveCurrent_cases hlive hsave with ⟨_, rfl⟩ | ⟨_, rfl⟩
      · exact ⟨rfl, le_rfl, by rw [StaticArray.liveCount_modify]; omega⟩
      · exact ⟨rfl, le_rfl, by omega⟩
  refine ⟨hcur, by rw [initialized_selectNext, hinit.1], by rw [liveCount_selectNext]; exact hinit.2.1,
    by rw [liveCount_selectNext]; exact hinit.2.2, fun j => ?_⟩
  have hsel : s₁.selectNext.1 = s₁.setRunning (s.resumedSlot f) := by
    unfold resumedSlot
    rw [← nextReady_saveCurrent ha hsave, ← currentTaskIndex_saveCurrent ha hsave]
    unfold selectNext
    cases s₁.nextReady <;> rfl
  rw [hsel, ← stateOf_saveCurrent hsave, stateOf, ptr_setRunning]
  split_ifs with hj
  · unfold stateOf
    cases s₁.tasks.ptr j <;> rfl
  · rfl

/-- The slot that runs after the call, if some slot is `READY` for it. -/
theorem resumedSlot_first {s : Scheduler} {f : InterruptFrame} (ha : s.inactive = false)
    (hstart : s.startSlot < taskCapacity) {j : ℕ} (hj : j < taskCapacity)
    (hr : s.readyAfter f j = true) :
    s.upcoming f = some (s.resumedSlot f) ∧ s.resumedSlot f < taskCapacity ∧
      s.readyAfter f (s.resumedSlot f) = true ∧
      ∀ j < taskCapacity, s.readyAfter f j = true →
        Cyclic.after taskCapacity s.startSlot (s.resumedSlot f) ≤
          Cyclic.after taskCapacity s.startSlot j := by
  have hspec := searchReady_first (s.readyAfter f) hstart
  have hup : s.upcoming f =
      searchReady (s.readyAfter f) s.startSlot taskCapacity s.startSlot := by
    unfold upcoming
    rw [ha, if_neg Bool.false_ne_true]
  unfold resumedSlot
  rw [hup]
  cases hsr : searchReady (s.readyAfter f) s.startSlot taskCapacity s.startSlot with
  | none =>
    rw [hsr] at hspec
    rw [hspec j hj] at hr
    cases hr
  | some i =>
    rw [hsr] at hspec
    exact ⟨rfl, hspec⟩

theorem stateOf_lt {s : Scheduler} {j : ℕ} {st : TaskState} (h : s.stateOf j = some st) :
    j < taskCapacity := by
  unfold stateOf at h
  rw [Option.map_eq_some_iff] at h
  obtain ⟨t, ht, _⟩ := h
  exact StaticArray.ptr_lt ht

theorem stateOf_createTask {sym : Symbols} {s s' : Scheduler} {name : String} {entry : UInt32}
    {base : ℕ} {stale : UInt32 × UInt32} {i : ℕ}
    (h : s.createTask sym name entry base stale = .ok (s', i)) (j : ℕ) :
    s'.stateOf j = if j = i then some .ready else s.stateOf j := by
  obtain ⟨_, ⟨t, ht, hst⟩, hother, _⟩ := createTask_eq_ok h
  unfold stateOf
  split_ifs with hj
  · rw [hj, ht, Option.map_some, hst]
  · rw [hother j hj]

/-! ## Runs -/

/-- One call. -/
def step (sym : Symbols) (s : Scheduler) : SchedAct → K Scheduler
  | .createTask name entry base stale => do
    let (s, _) ← s.createTask sym name entry base stale
    return s
  | .schedule ctx f => do
    let (s, _) ← s.schedule sym ctx f
    return s

def Step (sym : Symbols) (s : Scheduler) (a : SchedAct) (s' : Scheduler) : Prop :=
  s.step sym a = .ok s'

theorem step_createTask_iff {sym : Symbols} {s s' : Scheduler} {name : String} {entry : UInt32}
    {base : ℕ} {stale : UInt32 × UInt32} :
    s.Step sym (.createTask name entry base stale) s' ↔
      ∃ i, s.createTask sym name entry base stale = .ok (s', i) := by
  simp only [Step, step, K.bind_eq_ok]
  constructor
  · rintro ⟨⟨s₁, i⟩, hc, hs⟩
    obtain rfl : s₁ = s' := Except.ok.inj hs
    exact ⟨i, hc⟩
  · rintro ⟨i, hc⟩
    exact ⟨(s', i), hc, rfl⟩

theorem step_schedule_iff {sym : Symbols} {s s' : Scheduler} {ctx : ℕ} {f : InterruptFrame} :
    s.Step sym (.schedule ctx f) s' ↔ ∃ out, s.schedule sym ctx f = .ok (s', out) := by
  simp only [Step, step, K.bind_eq_ok]
  constructor
  · rintro ⟨⟨s₁, out⟩, hc, hs⟩
    obtain rfl : s₁ = s' := Except.ok.inj hs
    exact ⟨out, hc⟩
  · rintro ⟨out, hc⟩
    exact ⟨(s', out), hc, rfl⟩

/-- What holds in every run from a new scheduler: as long as "idle" is the only task, nothing has
been scheduled. -/
structure Started (s : Scheduler) : Prop where
  initialized : s.initialized = true
  live : 0 < s.tasks.liveCount
  index : s.currentTaskIndex < taskCapacity
  alone : s.tasks.liveCount ≤ 1 → s.stateOf 0 = some .ready ∧ ∀ j, j ≠ 0 → s.stateOf j = none

theorem Started.active {s : Scheduler} (h : Started s) : s.inactive = false := by
  have := h.live
  unfold inactive
  rw [h.initialized]
  simp
  omega

theorem Started.start {s : Scheduler} (h : Started s) : s.startSlot < taskCapacity := by
  unfold startSlot
  split_ifs
  · decide
  · exact h.index

/-- With one task, the free slot is the next one. -/
theorem Started.freeSlot {s : Scheduler} (h : Started s) (hlive : s.tasks.liveCount ≤ 1) :
    s.tasks.findFreeSlot = some 1 := by
  obtain ⟨h0, hfree⟩ := h.alone hlive
  apply World.find_range_eq (by decide)
  · have := hfree 1 (by decide)
    unfold stateOf at this
    rw [Option.map_eq_none_iff] at this
    unfold StaticArray.occupied
    rw [this]
    rfl
  · intro j hj
    obtain rfl : j = 0 := by omega
    unfold stateOf at h0
    rw [Option.map_eq_some_iff] at h0
    obtain ⟨t, ht, _⟩ := h0
    unfold StaticArray.occupied
    rw [ht]
    rfl

theorem started_of_construct {sym : Symbols} {idleEntry : UInt32} {base : ℕ}
    {stale : UInt32 × UInt32} {s : Scheduler} (h : construct sym idleEntry base stale = .ok s) :
    Started s := by
  obtain ⟨h1, h2, h3, ⟨t, ht, hst⟩, h5⟩ := construct_eq_ok h
  refine ⟨h3, by omega, by rw [h2]; decide, fun _ => ⟨?_, fun j hj => ?_⟩⟩
  · unfold stateOf
    rw [ht, Option.map_some, hst]
  · unfold stateOf
    rw [h5 j hj]
    rfl

theorem started_step {sym : Symbols} {s s' : Scheduler} {a : SchedAct} (h : Started s)
    (hs : s.Step sym a s') : Started s' := by
  cases a with
  | createTask name entry base stale =>
    obtain ⟨i, hc⟩ := step_createTask_iff.1 hs
    obtain ⟨_, _, _, hcount, hidx, hinit⟩ := createTask_eq_ok hc
    have := h.live
    exact ⟨by rw [hinit, h.initialized], by omega, by rw [hidx]; exact h.index, fun hl => by omega⟩
  | schedule ctx f =>
    obtain ⟨out, hc⟩ := step_schedule_iff.1 hs
    obtain ⟨hcur, hinit, hle, hlt, _⟩ := schedule_states h.active hc
    refine ⟨by rw [hinit, h.initialized], by omega, ?_, fun hl => by omega⟩
    rw [hcur]
    unfold resumedSlot
    cases hup : s.upcoming f with
    | none => exact h.start
    | some i =>
      have hspec := searchReady_first (s.readyAfter f) h.start
      unfold upcoming at hup
      rw [h.active, if_neg Bool.false_ne_true] at hup
      rw [hup] at hspec
      exact hspec.1

/-! ## The state machine -/

/-- One task is `RUNNING`, the one at `current_task_index`. -/
structure OneRunning (s : Scheduler) : Prop where
  current : s.stateOf s.currentTaskIndex = some .running
  only : ∀ j, s.stateOf j = some .running → j = s.currentTaskIndex

/-- "idle" is not interrupted with the marker of a finished task in its frame. -/
def IdleLives (s : Scheduler) : SchedAct → Prop
  | .createTask .. => True
  | .schedule _ f => s.savesOver 0 = true → diedIn f = false

/-- After `schedule` one task is `RUNNING`; the walk has found a `READY` task, so the fallback was
not reached; `TERMINATED` tasks are neither selected nor changed; and only the interrupted task (the
new "kernel" task in the first call) and the selected one change their state. `create_task` changes
the state of no task. -/
def Orderly (sym : Symbols) (s : Scheduler) : SchedAct → Prop
  | .createTask name entry base stale => ∀ s' i,
    s.createTask sym name entry base stale = .ok (s', i) →
      ∀ j, s.stateOf j ≠ none → s'.stateOf j = s.stateOf j
  | .schedule ctx f => ∀ s' out, s.schedule sym ctx f = .ok (s', out) →
    s'.OneRunning ∧ (∀ s₁, s.saveCurrent sym ctx f = .ok s₁ → s₁.nextReady ≠ none) ∧
      (∀ j, s.stateOf j = some .terminated →
        s'.stateOf j = some .terminated ∧ s'.currentTaskIndex ≠ j) ∧
      ∀ j, s.savesOver j = false → s.bootSlot ≠ some j → j ≠ s'.currentTaskIndex →
        s'.stateOf j = s.stateOf j

/-- The invariant: "idle" is `READY` or `RUNNING`, and no task but the current one is `RUNNING`. -/
structure Ticking (s : Scheduler) : Prop extends Started s where
  idle : s.stateOf 0 = some .ready ∨ s.stateOf 0 = some .running
  running : ∀ j, s.stateOf j = some .running → j = s.currentTaskIndex

theorem Ticking.savesOver {s : Scheduler} (h : Ticking s) (hlive : ¬ s.tasks.liveCount ≤ 1) {j : ℕ}
    (hj : s.stateOf j = some .running) : s.savesOver j = true := by
  have hcur := h.running j hj
  unfold stateOf at hj
  rw [Option.map_eq_some_iff] at hj
  obtain ⟨t, ht, hst⟩ := hj
  exact savesOver_iff.2 ⟨by omega, hcur, t, ht, hst⟩

theorem stateOf_of_savesOver {s : Scheduler} {j : ℕ} (h : s.savesOver j = true) :
    s.stateOf j = some .running := by
  obtain ⟨_, _, t, ht, hst⟩ := savesOver_iff.1 h
  unfold stateOf
  rw [ht, Option.map_some, hst]

/-- The interrupted frame has been saved: no task is `RUNNING`. -/
theorem Ticking.savedState_ne_running {s : Scheduler} (h : Ticking s) (f : InterruptFrame) (j : ℕ) :
    s.savedState f j ≠ some .running := by
  unfold savedState
  intro hj
  by_cases hlive : s.tasks.liveCount ≤ 1
  · obtain ⟨h0, hfree⟩ := h.alone hlive
    rw [if_pos hlive] at hj
    split_ifs at hj
    · cases hj
    · by_cases hj0 : j = 0
      · rw [hj0, h0] at hj; cases hj
      · rw [hfree j hj0] at hj; cases hj
  · rw [if_neg hlive] at hj
    cases hs : s.savesOver j with
    | true =>
      rw [hs, if_pos rfl] at hj
      split_ifs at hj <;> cases hj
    | false =>
      rw [hs, if_neg Bool.false_ne_true] at hj
      rw [h.savesOver hlive hj] at hs
      cases hs

theorem Ticking.idle_ready {s : Scheduler} (h : Ticking s) {f : InterruptFrame}
    (hidle : s.savesOver 0 = true → diedIn f = false) : s.savedState f 0 = some .ready := by
  unfold savedState
  by_cases hlive : s.tasks.liveCount ≤ 1
  · rw [if_pos hlive, h.freeSlot hlive, if_neg (by decide)]
    exact (h.alone hlive).1
  · rw [if_neg hlive]
    cases hs : s.savesOver 0 with
    | true => rw [if_pos rfl, hidle hs]; rfl
    | false =>
      rw [if_neg Bool.false_ne_true]
      rcases h.idle with h0 | h0
      · exact h0
      · rw [h.savesOver hlive h0] at hs
        cases hs

/-- A state that no interrupted task has is kept by saving the frame. -/
theorem Ticking.savedState_of_ne {s : Scheduler} (h : Ticking s) (f : InterruptFrame) {j : ℕ}
    (hno : s.savesOver j = false) (hboot : s.bootSlot ≠ some j) :
    s.savedState f j = s.stateOf j := by
  unfold savedState
  by_cases hlive : s.tasks.liveCount ≤ 1
  · unfold bootSlot at hboot
    rw [h.active, decide_eq_true hlive, Bool.not_false, Bool.true_and, if_pos rfl] at hboot
    rw [if_pos hlive, if_neg hboot]
  · rw [if_neg hlive, hno, if_neg Bool.false_ne_true]

/-- A `TERMINATED` task is not the interrupted one. -/
theorem Ticking.savedState_terminated {s : Scheduler} (h : Ticking s) (f : InterruptFrame) {j : ℕ}
    (hj : s.stateOf j = some .terminated) : s.savedState f j = some .terminated := by
  rw [h.savedState_of_ne f, hj]
  · cases hs : s.savesOver j with
    | true => rw [stateOf_of_savesOver hs] at hj; cases hj
    | false => rfl
  · unfold bootSlot
    split_ifs with hb
    · rw [Bool.and_eq_true, decide_eq_true_eq] at hb
      rw [h.freeSlot hb.2]
      rintro he
      cases he
      rw [(h.alone hb.2).2 1 (by decide)] at hj
      cases hj
    · exact fun he => by cases he

theorem Ticking.resumed {s : Scheduler} (h : Ticking s) {f : InterruptFrame}
    (hidle : s.savesOver 0 = true → diedIn f = false) :
    s.upcoming f = some (s.resumedSlot f) ∧
      s.savedState f (s.resumedSlot f) = some .ready := by
  have hr : s.readyAfter f 0 = true := by
    rw [readyAfter_eq, h.idle_ready hidle]
    rfl
  obtain ⟨hup, _, hready, _⟩ := resumedSlot_first h.active h.start (by decide) hr
  rw [readyAfter_eq, beq_iff_eq] at hready
  exact ⟨hup, hready⟩

theorem Ticking.oneRunning {sym : Symbols} {s s' : Scheduler} {ctx : ℕ} {f : InterruptFrame}
    {out : Option InterruptFrame} (h : Ticking s)
    (hidle : s.savesOver 0 = true → diedIn f = false)
    (hs : s.schedule sym ctx f = .ok (s', out)) : s'.OneRunning := by
  obtain ⟨hcur, _, _, _, hstate⟩ := schedule_states h.active hs
  have hready := (h.resumed hidle).2
  refine ⟨?_, fun j hj => ?_⟩
  · rw [hcur, hstate, if_pos rfl, hready]
    rfl
  · rw [hstate] at hj
    split_ifs at hj with hjr
    · rw [hjr, hcur]
    · exact absurd hj (h.savedState_ne_running f j)

theorem ticking_step {sym : Symbols} {s s' : Scheduler} {a : SchedAct} (h : Ticking s)
    (hidle : s.IdleLives a) (hs : s.Step sym a s') : Ticking s' := by
  have hst := started_step h.toStarted hs
  cases a with
  | createTask name entry base stale =>
    obtain ⟨i, hc⟩ := step_createTask_iff.1 hs
    have hstate := stateOf_createTask hc
    obtain ⟨_, _, _, _, hidx, _⟩ := createTask_eq_ok hc
    refine ⟨hst, ?_, fun j hj => ?_⟩
    · rw [hstate]
      split_ifs
      · exact Or.inl rfl
      · exact h.idle
    · rw [hstate] at hj
      split_ifs at hj
      · cases hj
      · rw [hidx]
        exact h.running j hj
  | schedule ctx f =>
    obtain ⟨out, hc⟩ := step_schedule_iff.1 hs
    obtain ⟨_, _, _, _, hstate⟩ := schedule_states h.active hc
    refine ⟨hst, ?_, (h.oneRunning hidle hc).only⟩
    rw [hstate, h.idle_ready hidle]
    split_ifs
    · exact Or.inr rfl
    · exact Or.inl rfl

theorem ticking_of_construct {sym : Symbols} {idleEntry : UInt32} {base : ℕ}
    {stale : UInt32 × UInt32} {s : Scheduler} (h : construct sym idleEntry base stale = .ok s) :
    Ticking s := by
  have hst := started_of_construct h
  obtain ⟨h0, hfree⟩ := hst.alone (by rw [(construct_eq_ok h).1])
  refine ⟨hst, Or.inl h0, fun j hj => ?_⟩
  by_cases hj0 : j = 0
  · rw [hj0, h0] at hj; cases hj
  · rw [hfree j hj0] at hj; cases hj

theorem orderly_of_ticking {sym : Symbols} {s : Scheduler} {a : SchedAct} (h : Ticking s)
    (hidle : s.IdleLives a) : s.Orderly sym a := by
  cases a with
  | createTask name entry base stale =>
    intro s' i hc j hj
    rw [stateOf_createTask hc]
    split_ifs with hi
    · unfold stateOf at hj
      rw [hi, (createTask_eq_ok hc).1] at hj
      exact absurd rfl hj
    · rfl
  | schedule ctx f =>
    intro s' out hs
    obtain ⟨hcur, _, _, _, hstate⟩ := schedule_states h.active hs
    obtain ⟨hup, hready⟩ := h.resumed hidle
    refine ⟨h.oneRunning hidle hs, fun s₁ hsave => ?_, fun j hj => ?_, fun j hno hboot hne => ?_⟩
    · rw [nextReady_saveCurrent h.active hsave, hup]
      exact fun he => by cases he
    · have hsaved := h.savedState_terminated f hj
      have hne : j ≠ s.resumedSlot f := by
        rintro rfl
        rw [hready] at hsaved
        cases hsaved
      exact ⟨by rw [hstate, if_neg hne, hsaved], by rw [hcur]; exact hne.symm⟩
    · rw [hcur] at hne
      rw [hstate, if_neg hne, h.savedState_of_ne f hno hboot]

theorem terminated_run {sym : Symbols} {s s' : Scheduler} {as : List SchedAct}
    (hrun : Run (Step sym) s as s') (h : Along (Step sym) (Orderly sym) s as) {j : ℕ}
    (hj : s.stateOf j = some .terminated) : s'.stateOf j = some .terminated := by
  induction hrun with
  | nil s => exact hj
  | @cons s s₁ s' a as hs _ ih =>
    refine ih (h.2 _ hs) ?_
    have ho := h.1
    cases a with
    | createTask name entry base stale =>
      obtain ⟨i, hc⟩ := step_createTask_iff.1 hs
      rw [ho _ _ hc j (by rw [hj]; exact fun he => by cases he), hj]
    | schedule ctx f =>
      obtain ⟨out, hc⟩ := step_schedule_iff.1 hs
      exact ((ho _ _ hc).2.2.1 j hj).1

/-- **The state machine of the scheduler.** In every run from a new scheduler in which "idle" is not
interrupted with the marker of a finished task, every call is orderly, and a task that is
`TERMINATED` stays so. -/
theorem states_orderly {sym : Symbols} {idleEntry : UInt32} {base : ℕ} {stale : UInt32 × UInt32}
    {s₀ : Scheduler} (h : construct sym idleEntry base stale = .ok s₀) (as : List SchedAct)
    (hidle : Along (Step sym) IdleLives s₀ as) :
    Along (Step sym) (Orderly sym) s₀ as ∧
    ∀ bs cs s s', as = bs ++ cs → Run (Step sym) s₀ bs s → Run (Step sym) s cs s' →
      ∀ j, s.stateOf j = some .terminated → s'.stateOf j = some .terminated := by
  have hall : Along (Step sym) (Orderly sym) s₀ as :=
    Along.of_invariant (I := Ticking) (fun _ _ _ hI hC hs => ticking_step hI hC hs)
      (fun _ _ hI hC => orderly_of_ticking hI hC) (ticking_of_construct h) hidle
  refine ⟨hall, fun bs cs s s' heq hbs hcs j hj => ?_⟩
  rw [heq] at hall
  exact terminated_run hcs (hall.drop hbs) hj

/-- Calls in which a created task runs and finishes: the first `schedule` selects "idle" and makes
"kernel", the task created in slot 2 is selected after it and then interrupted with the marker. -/
def sampleCalls : List SchedAct :=
  [.schedule 0x302000 World.zeroFrame,
    .createTask "worker" 0x200300 0x1002000 (0, 0),
    .schedule 0x1001000 World.zeroFrame,
    .schedule 0x302000 World.zeroFrame,
    .schedule 0x1003000 { World.zeroFrame with eax := 0xDEADDEAD }]

theorem step_iff (sym : Symbols) (s : Scheduler) (a : SchedAct) (s' : Scheduler) :
    s.Step sym a s' ↔ (s.step sym a).toOption = some s' := by
  unfold Step
  cases s.step sym a <;> simp [Except.toOption]

/-- The condition on "idle", evaluated. -/
def idleLives (s : Scheduler) : SchedAct → Bool
  | .createTask .. => true
  | .schedule _ f => !s.savesOver 0 || !diedIn f

theorem idleLives_iff (s : Scheduler) (a : SchedAct) : s.idleLives a = true → s.IdleLives a := by
  cases a with
  | createTask => exact fun _ => trivial
  | schedule ctx f =>
    intro h hs
    simpa [idleLives, hs] using h

theorem states_orderly_sample : ∃ s₀ s,
    construct World.sampleSymbols 0x200200 0x1000000 (0, 0) = .ok s₀ ∧
    Run (Step World.sampleSymbols) s₀ sampleCalls s ∧ s.stateOf 2 = some .terminated ∧
    Along (Step World.sampleSymbols) (Orderly World.sampleSymbols) s₀ sampleCalls := by
  have hf := step_iff World.sampleSymbols
  obtain ⟨s₀, h₀, hp⟩ := K.exists_of_holds
    (x := construct World.sampleSymbols 0x200200 0x1000000 (0, 0))
    (p := fun s₀ =>
      (sampleCalls.foldlM (fun s a => (step World.sampleSymbols s a).toOption) s₀).any
        (fun s => s.stateOf 2 == some .terminated) &&
      check (fun s a => (step World.sampleSymbols s a).toOption) idleLives s₀ sampleCalls)
    (by decide +kernel)
  rw [Bool.and_eq_true, Option.any_eq_true] at hp
  obtain ⟨⟨s, hs, hterm⟩, hcheck⟩ := hp
  exact ⟨s₀, s, h₀, run_of_foldlM hf hs, by simpa using hterm, (states_orderly h₀ sampleCalls
    ((along_of_check hf hcheck).mono fun s a => idleLives_iff s a)).1⟩

/-! ## The order of selection -/

/-- A call of `schedule` for which some slot is `READY`, once the interrupted frame has been saved,
takes the first such slot behind the one it starts from, which itself comes last. -/
def PicksFirst (sym : Symbols) (s : Scheduler) : SchedAct → Prop
  | .createTask .. => True
  | .schedule ctx f => ∀ s' out, s.schedule sym ctx f = .ok (s', out) →
    ∀ j, s.readyAfter f j = true →
      out.isSome ∧ s.readyAfter f s'.currentTaskIndex = true ∧
        Cyclic.after taskCapacity s.startSlot s'.currentTaskIndex ≤
          Cyclic.after taskCapacity s.startSlot j

theorem Started.readyAfter_lt {s : Scheduler} (h : Started s) {f : InterruptFrame} {j : ℕ}
    (hr : s.readyAfter f j = true) : j < taskCapacity := by
  rw [readyAfter_eq, beq_iff_eq] at hr
  unfold savedState at hr
  by_cases hlive : s.tasks.liveCount ≤ 1
  · rw [if_pos hlive, h.freeSlot hlive] at hr
    split_ifs at hr with hj
    · cases hj
      decide
    · exact stateOf_lt hr
  · rw [if_neg hlive] at hr
    cases hsave : s.savesOver j with
    | true => exact stateOf_lt (stateOf_of_savesOver hsave)
    | false =>
      rw [hsave, if_neg Bool.false_ne_true] at hr
      exact stateOf_lt hr

theorem picksFirst_of_started {sym : Symbols} {s : Scheduler} (h : Started s) (a : SchedAct) :
    s.PicksFirst sym a := by
  cases a with
  | createTask => exact trivial
  | schedule ctx f =>
    intro s' out hs j hj
    obtain ⟨hup, _, hready, hfirst⟩ :=
      resumedSlot_first h.active h.start (h.readyAfter_lt hj) hj
    obtain ⟨_, hcur, hout⟩ := schedule_eq_ok hs
    rw [hup] at hout
    rw [hcur]
    exact ⟨hout.1, hready, hfirst j (h.readyAfter_lt hj) hj⟩

/-- The scheduler, and the slots selected so far. -/
structure Watched where
  sched : Scheduler
  picked : List ℕ

/-- One call. `schedule` selects a slot when it copies a frame. -/
def Watched.step (sym : Symbols) (w : Watched) : SchedAct → K Watched
  | .createTask name entry base stale => do
    let (s, _) ← w.sched.createTask sym name entry base stale
    return ⟨s, w.picked⟩
  | .schedule ctx f => do
    let (s, out) ← w.sched.schedule sym ctx f
    return ⟨s, w.picked ++ if out.isSome then [s.currentTaskIndex] else []⟩

def Watched.Step (sym : Symbols) (w : Watched) (a : SchedAct) (w' : Watched) : Prop :=
  w.step sym a = .ok w'

theorem started_watched {sym : Symbols} {w w' : Watched} {a : SchedAct} (h : Started w.sched)
    (hs : w.Step sym a w') : Started w'.sched := by
  suffices hstep : w.sched.Step sym a w'.sched from started_step h hstep
  unfold Watched.Step at hs
  cases a with
  | createTask name entry base stale =>
    simp only [Watched.step, K.bind_eq_ok] at hs
    obtain ⟨p, hc, hs⟩ := hs
    cases hs
    exact step_createTask_iff.2 ⟨_, hc⟩
  | schedule ctx f =>
    simp only [Watched.step, K.bind_eq_ok] at hs
    obtain ⟨p, hc, hs⟩ := hs
    cases hs
    exact step_schedule_iff.2 ⟨_, hc⟩

/-- While `t` waits, `schedule` jumps from the current slot to one before `t`. -/
theorem jump_of_waiting {sym : Symbols} {s s' : Scheduler} {ctx : ℕ} {f : InterruptFrame}
    {out : Option InterruptFrame} {t : ℕ} (h : Started s)
    (hs : s.schedule sym ctx f = .ok (s', out)) (ht : s.isReady t = true)
    (ht' : s'.isReady t = true) :
    out.isSome = true ∧ Cyclic.after taskCapacity s.currentTaskIndex s'.currentTaskIndex <
      Cyclic.after taskCapacity s.currentTaskIndex t := by
  rw [isReady_eq, beq_iff_eq] at ht ht'
  have htlt := stateOf_lt ht
  obtain ⟨hcur, _, _, _, hstate⟩ := schedule_states h.active hs
  have hnot : s.savesOver t = false := by
    cases hsv : s.savesOver t with
    | true => rw [stateOf_of_savesOver hsv] at ht; cases ht
    | false => rfl
  have hsaved : s.savedState f t = some .ready := by
    unfold savedState
    rw [hnot, ht, if_neg Bool.false_ne_true, ite_self, ite_self]
  have hready : s.readyAfter f t = true := by rw [readyAfter_eq, hsaved]; rfl
  obtain ⟨hup, hrlt, hrready, hfirst⟩ := resumedSlot_first h.active h.start htlt hready
  have hne : s.resumedSlot f ≠ t := by
    intro he
    rw [hstate, if_pos he.symm, hsaved] at ht'
    cases ht'
  have hlt : Cyclic.after taskCapacity s.startSlot (s.resumedSlot f) <
      Cyclic.after taskCapacity s.startSlot t :=
    lt_of_le_of_ne (hfirst t htlt hready) fun he => hne (Cyclic.after_inj h.start hrlt htlt he)
  have hstart : s.startSlot = s.currentTaskIndex := by
    by_cases hlive : s.tasks.liveCount ≤ 1
    · -- only "idle" waits, and the first call selects it
      exfalso
      obtain ⟨_, hfree⟩ := h.alone hlive
      have ht0 : t = 0 := by
        by_contra hc
        rw [hfree t hc] at ht
        cases ht
      have hs1 : s.startSlot = 1 := by
        unfold startSlot
        rw [h.active, decide_eq_true hlive]
        rfl
      have hr1 : s.resumedSlot f = 1 := by
        rw [readyAfter_eq, beq_iff_eq] at hrready
        unfold savedState at hrready
        rw [if_pos hlive, h.freeSlot hlive] at hrready
        by_contra hc
        rw [if_neg fun he => hc (Option.some.inj he).symm,
          hfree _ (fun h0 => hne (h0.trans ht0.symm))] at hrready
        cases hrready
      rw [hs1, hr1, ht0] at hlt
      revert hlt
      decide
    · unfold startSlot
      rw [decide_eq_false hlive, Bool.and_false]
      rfl
  obtain ⟨_, _, hout⟩ := schedule_eq_ok hs
  rw [hup] at hout
  rw [hcur, ← hstart]
  exact ⟨hout.1, hlt⟩

/-- The selections of a segment in which `t` waits. -/
theorem picked_of_waiting {sym : Symbols} {t : ℕ} {w w' : Watched} {bs : List SchedAct}
    (hrun : Run (Watched.Step sym) w bs w') (h : Started w.sched)
    (hwait : Along (Watched.Step sym) (fun w _ => w.sched.isReady t = true) w bs)
    (hend : w'.sched.isReady t = true) :
    ∃ l, w'.picked = w.picked ++ l ∧ (∀ x ∈ w.sched.currentTaskIndex :: l, x < taskCapacity) ∧
      List.IsChain (fun c k => Cyclic.after taskCapacity c k < Cyclic.after taskCapacity c t)
        (w.sched.currentTaskIndex :: l) := by
  induction hrun with
  | nil w =>
    refine ⟨[], (List.append_nil _).symm, fun x hx => ?_, List.isChain_singleton _⟩
    rw [List.mem_singleton.1 hx]
    exact h.index
  | @cons w w₁ w' a bs hs hrun ih =>
    obtain ⟨l, hl, hlt, hch⟩ := ih (started_watched h hs) (hwait.2 _ hs) hend
    have ht₁ : w₁.sched.isReady t = true := by
      cases hrun with
      | nil => exact hend
      | cons => exact (hwait.2 _ hs).1
    unfold Watched.Step at hs
    cases a with
    | createTask name entry base stale =>
      simp only [Watched.step, K.bind_eq_ok] at hs
      obtain ⟨⟨s, i⟩, hc, hs⟩ := hs
      cases hs
      obtain ⟨_, _, _, _, hidx, _⟩ := createTask_eq_ok hc
      dsimp only at hl hlt hch
      rw [hidx] at hlt hch
      exact ⟨l, hl, hlt, hch⟩
    | schedule ctx f =>
      simp only [Watched.step, K.bind_eq_ok] at hs
      obtain ⟨⟨s, out⟩, hc, hs⟩ := hs
      cases hs
      obtain ⟨hout, hjump⟩ := jump_of_waiting h hc hwait.1 ht₁
      dsimp only at hl hlt hch
      rw [hout, if_pos rfl, List.append_assoc] at hl
      refine ⟨s.currentTaskIndex :: l, hl, fun x hx => ?_, .cons_cons hjump hch⟩
      rcases List.mem_cons.1 hx with rfl | hx
      · exact h.index
      · exact hlt x hx

/-- **Round robin.** In every run from a new scheduler, `schedule` picks the first `READY` slot; and
in a segment of the run throughout which a task waits, no slot is selected twice, and that of the
task not at all. -/
theorem round_robin {sym : Symbols} {idleEntry : UInt32} {base : ℕ} {stale : UInt32 × UInt32}
    {s₀ : Scheduler} (h : construct sym idleEntry base stale = .ok s₀) (as : List SchedAct) :
    Along (Step sym) (PicksFirst sym) s₀ as ∧
    ∀ w, Run (Watched.Step sym) ⟨s₀, []⟩ as w → ∀ bs w', Run (Watched.Step sym) w bs w' →
      ∀ t, Along (Watched.Step sym) (fun w _ => w.sched.isReady t = true) w bs →
        w'.sched.isReady t = true → ∃ l, w'.picked = w.picked ++ l ∧ t ∉ l ∧ l.Nodup := by
  have hst := started_of_construct h
  refine ⟨Along.of_invariant (I := Started) (C := fun _ _ => True)
    (fun _ _ _ hI _ hs => started_step hI hs) (fun _ a hI _ => picksFirst_of_started hI a) hst
    (along_true _ _), fun w hw bs w' hbs t hwait hend => ?_⟩
  have hstw : Started w.sched := Run.invariant (I := fun w : Watched => Started w.sched)
    (C := fun _ _ => True) (fun _ _ _ hI _ hs => started_watched hI hs) hw (along_true _ _) hst
  obtain ⟨l, hl, hlt, hch⟩ := picked_of_waiting hbs hstw hwait hend
  have ht : t < taskCapacity := by
    rw [isReady_eq, beq_iff_eq] at hend
    exact stateOf_lt hend
  exact ⟨l, hl, Cyclic.notMem_of_approach hch, Cyclic.nodup_of_approach ht hlt hch⟩

/-- Two tasks are created besides "idle" and "kernel". -/
def fourTasks : List SchedAct :=
  [.schedule 0x302000 World.zeroFrame, .createTask "worker" 0x200300 0x1002000 (0, 0),
    .createTask "helper" 0x200400 0x1004000 (0, 0)]

/-- The task in slot 3 waits while "kernel" and then "worker" are selected. -/
theorem round_robin_sample : ∃ s₀ w w',
    construct World.sampleSymbols 0x200200 0x1000000 (0, 0) = .ok s₀ ∧
    Run (Watched.Step World.sampleSymbols) ⟨s₀, []⟩ fourTasks w ∧
    Run (Watched.Step World.sampleSymbols) w
      [.schedule 0x1001000 World.zeroFrame, .schedule 0x302000 World.zeroFrame] w' ∧
    w'.sched.isReady 3 = true ∧ w'.picked = w.picked ++ [1, 2] ∧
    ∃ l, w'.picked = w.picked ++ l ∧ 3 ∉ l ∧ l.Nodup := by
  obtain ⟨⟨s₀, w₁, w₂, w, w₃, w'⟩, hw, hp⟩ := K.exists_of_holds
    (x := do
      let s₀ ← construct World.sampleSymbols 0x200200 0x1000000 (0, 0)
      let w₁ ← Watched.step World.sampleSymbols ⟨s₀, []⟩ (.schedule 0x302000 World.zeroFrame)
      let w₂ ← Watched.step World.sampleSymbols w₁ (.createTask "worker" 0x200300 0x1002000 (0, 0))
      let w ← Watched.step World.sampleSymbols w₂ (.createTask "helper" 0x200400 0x1004000 (0, 0))
      let w₃ ← Watched.step World.sampleSymbols w (.schedule 0x1001000 World.zeroFrame)
      let w' ← Watched.step World.sampleSymbols w₃ (.schedule 0x302000 World.zeroFrame)
      return (s₀, w₁, w₂, w, w₃, w'))
    (p := fun r => r.2.2.2.1.sched.isReady 3 && r.2.2.2.2.1.sched.isReady 3 &&
      r.2.2.2.2.2.sched.isReady 3 && r.2.2.2.2.2.picked == r.2.2.2.1.picked ++ [1, 2])
    (by decide +kernel)
  simp only [K.bind_eq_ok] at hw
  obtain ⟨s₀', h₀, w₁', h₁, w₂', h₂, w₃', h₃, w₄', h₄, w₅', h₅, he⟩ := hw
  cases he
  rw [Bool.and_eq_true, Bool.and_eq_true, Bool.and_eq_true, beq_iff_eq] at hp
  obtain ⟨⟨⟨ht, ht₃⟩, ht'⟩, hpicked⟩ := hp
  have hrun : Run (Watched.Step World.sampleSymbols) ⟨s₀, []⟩ fourTasks w :=
    .cons h₁ (.cons h₂ (.cons h₃ (.nil _)))
  have hseg : Run (Watched.Step World.sampleSymbols) w
      [.schedule 0x1001000 World.zeroFrame, .schedule 0x302000 World.zeroFrame] w' :=
    .cons h₄ (.cons h₅ (.nil _))
  refine ⟨s₀, w, w', h₀, hrun, hseg, ht', hpicked, ?_⟩
  refine (round_robin h₀ fourTasks).2 w hrun _ w' hseg 3 ⟨ht, fun x hx => ⟨?_, fun _ _ => trivial⟩⟩ ht'
  rw [show x = w₃ from Except.ok.inj (hx.symm.trans h₄)]
  exact ht₃

end Scheduler

end Ospp
