import Ospp.Lib.Guarded

/-!
# `kstd::SpinLock`

`SpinLock` is one atomic flag. `lock` exchanges it for `true` and, as long as it was set before,
waits in an inner loop that only reads; `try_lock` exchanges it once; `unlock` stores `false`. Here
any number of threads run operations of an object behind such a lock, each under a `SpinLockGuard`,
with every access to the flag and every small step of an operation a step of its own. The flag's
accesses are those of one memory: exchanges are locked instructions, and the store that releases the
lock comes after the accesses of the section.

The machine refines the guarded one of `Lib.Guarded` (`Refines.step`), where a thread takes the lock
in a single step and turns of the spin loops are not seen, so operations behind the lock are atomic
(`spinlock_atomic`). None is lost, and none is done twice (`run_history`).
-/

namespace Ospp

open Trans Guarded

namespace SpinLock

/-- Where a thread is in `lock` or `try_lock`, in the section behind it, and in `unlock`. -/
inductive Pc (D ρ Op : Type) where
  | idle
  /-- The next step is the exchange. -/
  | exchange (o : Op) (isTry : Bool)
  /-- The next step is the load of the inner loop. -/
  | load (o : Op)
  /-- When nothing is left of the operation, the next step is the store of `unlock`. -/
  | inside (o : Op) (left : List (D → ρ → Option (D × ρ))) (reg : ρ)

structure State (D ρ Op θ : Type) where
  locked : Bool
  data : D
  pc : θ → Pc D ρ Op
  /-- The operations that have released the lock, with the final registers, in this order. -/
  done : List (θ × Op × ρ)

inductive Act (Op θ : Type) where
  /-- The thread starts an operation, with `lock`. -/
  | lock (t : θ) (o : Op)
  /-- The thread starts an operation, if `try_lock` succeeds. -/
  | tryLock (t : θ) (o : Op)
  | exec (t : θ)
  deriving DecidableEq

variable {D ρ Op θ : Type}

namespace State

def start (d : D) : State D ρ Op θ := ⟨false, d, fun _ => .idle, []⟩

def Inside (s : State D ρ Op θ) (t : θ) : Prop := ∃ o left r, s.pc t = .inside o left r

/-- The thread is in `lock`. -/
def Wants (s : State D ρ Op θ) (t : θ) (o : Op) : Prop :=
  s.pc t = .exchange o false ∨ s.pc t = .load o

variable [DecidableEq θ] (O : Object D ρ Op)

def setPc (s : State D ρ Op θ) (t : θ) (p : Pc D ρ Op) : State D ρ Op θ :=
  { s with pc := Function.update s.pc t p }

/-- The next step of a thread. -/
def exec (s : State D ρ Op θ) (t : θ) : Option (State D ρ Op θ) :=
  match s.pc t with
  | .idle => none
  | .exchange o isTry =>
    if s.locked then some ({ s with locked := true }.setPc t (if isTry then .idle else .load o))
    else some ({ s with locked := true }.setPc t (.inside o (O.body o) (O.entry o)))
  | .load o => if s.locked then some s else some (s.setPc t (.exchange o false))
  | .inside o (f :: fs) r =>
    (f s.data r).map fun x => { s with data := x.1 }.setPc t (.inside o fs x.2)
  | .inside o [] r =>
    some ({ s with locked := false, done := s.done ++ [(t, o, r)] }.setPc t .idle)

def step (s : State D ρ Op θ) : Act Op θ → Option (State D ρ Op θ)
  | .lock t o =>
    match s.pc t with
    | .idle => some (s.setPc t (.exchange o false))
    | _ => none
  | .tryLock t o =>
    match s.pc t with
    | .idle => some (s.setPc t (.exchange o true))
    | _ => none
  | .exec t => s.exec O t

end State

def Step [DecidableEq θ] (O : Object D ρ Op) (s : State D ρ Op θ) (a : Act Op θ)
    (s' : State D ρ Op θ) : Prop := s.step O a = some s'

/-! ## The steps -/

section

variable [DecidableEq θ]

/-- What a step can do. -/
inductive Moves (O : Object D ρ Op) (s : State D ρ Op θ) : Act Op θ → State D ρ Op θ → Prop
  | lock {t : θ} {o : Op} : s.pc t = .idle →
      Moves O s (.lock t o) (s.setPc t (.exchange o false))
  | tryLock {t : θ} {o : Op} : s.pc t = .idle →
      Moves O s (.tryLock t o) (s.setPc t (.exchange o true))
  | busy {t : θ} {o : Op} : s.pc t = .exchange o false → s.locked = true →
      Moves O s (.exec t) (s.setPc t (.load o))
  | giveUp {t : θ} {o : Op} : s.pc t = .exchange o true → s.locked = true →
      Moves O s (.exec t) (s.setPc t .idle)
  | enter {t : θ} {o : Op} {isTry : Bool} : s.pc t = .exchange o isTry → s.locked = false →
      Moves O s (.exec t) ({ s with locked := true }.setPc t (.inside o (O.body o) (O.entry o)))
  | spin {t : θ} {o : Op} : s.pc t = .load o → s.locked = true → Moves O s (.exec t) s
  | retry {t : θ} {o : Op} : s.pc t = .load o → s.locked = false →
      Moves O s (.exec t) (s.setPc t (.exchange o false))
  | work {t : θ} {o : Op} {f : D → ρ → Option (D × ρ)} {fs : List (D → ρ → Option (D × ρ))}
      {r : ρ} {x : D × ρ} : s.pc t = .inside o (f :: fs) r → f s.data r = some x →
      Moves O s (.exec t) ({ s with data := x.1 }.setPc t (.inside o fs x.2))
  | leave {t : θ} {o : Op} {r : ρ} : s.pc t = .inside o [] r →
      Moves O s (.exec t)
        ({ s with locked := false, done := s.done ++ [(t, o, r)] }.setPc t .idle)

theorem step_moves {O : Object D ρ Op} {s s' : State D ρ Op θ} {a : Act Op θ}
    (hs : Step O s a s') : Moves O s a s' := by
  unfold Step at hs
  cases a with
  | lock t o =>
    rw [State.step] at hs
    cases hp : s.pc t with
    | idle => rw [hp] at hs; cases hs; exact .lock hp
    | exchange _ _ => rw [hp] at hs; cases hs
    | load _ => rw [hp] at hs; cases hs
    | inside _ _ _ => rw [hp] at hs; cases hs
  | tryLock t o =>
    rw [State.step] at hs
    cases hp : s.pc t with
    | idle => rw [hp] at hs; cases hs; exact .tryLock hp
    | exchange _ _ => rw [hp] at hs; cases hs
    | load _ => rw [hp] at hs; cases hs
    | inside _ _ _ => rw [hp] at hs; cases hs
  | exec t =>
    rw [State.step, State.exec] at hs
    cases hp : s.pc t with
    | idle => rw [hp] at hs; cases hs
    | exchange o isTry =>
      rw [hp] at hs
      dsimp only at hs
      by_cases hl : s.locked = true
      · have hsame : ({ s with locked := true } : State D ρ Op θ) = s := by rw [← hl]
        rw [if_pos hl, hsame] at hs
        cases isTry with
        | true => cases hs; exact .giveUp hp hl
        | false => cases hs; exact .busy hp hl
      · rw [if_neg hl] at hs
        cases hs
        exact .enter hp (Bool.not_eq_true _ ▸ hl)
    | load o =>
      rw [hp] at hs
      dsimp only at hs
      split_ifs at hs with hl
      · cases hs
        exact .spin hp hl
      · cases hs
        exact .retry hp (Bool.not_eq_true _ ▸ hl)
    | inside o left r =>
      rw [hp] at hs
      cases left with
      | nil => cases hs; exact .leave hp
      | cons f fs =>
        obtain ⟨x, hx, rfl⟩ := Option.map_eq_some_iff.1 hs
        exact .work hp hx

end

/-! ## Refinement -/

/-- What the guarded machine sees of a thread. -/
def Pc.phase : Pc D ρ Op → Phase D ρ Op
  | .idle => .idle
  | .exchange o _ => .waiting o
  | .load o => .waiting o
  | .inside o left r => .inside o left r

structure Refines (s : State D ρ Op θ) (g : Guarded.State D ρ Op θ) : Prop where
  data : g.data = s.data
  done : g.done = s.done
  locked : g.holder.isSome = s.locked
  phase : ∀ t, g.phase t = (s.pc t).phase

theorem refines_start (d : D) : Refines (State.start d : State D ρ Op θ) (.start d) :=
  ⟨rfl, rfl, rfl, fun _ => rfl⟩

/-- The step of the guarded machine that a step of the code is, if it is seen at all. -/
def seen (s : State D ρ Op θ) : Act Op θ → Option (Guarded.Act Op θ)
  | .lock t o => some (.call t o)
  | .tryLock t o => some (.call t o)
  | .exec t =>
    match s.pc t with
    | .idle => none
    | .exchange _ isTry =>
      if s.locked then (if isTry then some (.giveUp t) else none) else some (.acquire t)
    | .load _ => none
    | .inside _ (_ :: _) _ => some (.work t)
    | .inside _ [] _ => some (.release t)

section

variable [DecidableEq θ] {O : Object D ρ Op} {s s' : State D ρ Op θ} {g : Guarded.State D ρ Op θ}

theorem phase_update (h : ∀ u, g.phase u = (s.pc u).phase) {t : θ} {p : Pc D ρ Op}
    {q : Phase D ρ Op} (hq : q = p.phase) (u : θ) :
    Function.update g.phase t q u = (Function.update s.pc t p u).phase := by
  by_cases hu : u = t
  · subst hu
    rw [Function.update_self, Function.update_self, hq]
  · rw [Function.update_of_ne hu, Function.update_of_ne hu, h u]

/-- A thread changes its place only, which the guarded machine does not see. -/
theorem Refines.unseen (h : Refines s g) {t : θ} {p : Pc D ρ Op} (hp : p.phase = (s.pc t).phase) :
    Refines (s.setPc t p) g := by
  refine ⟨h.data, h.done, h.locked, fun u => ?_⟩
  show g.phase u = (Function.update s.pc t p u).phase
  by_cases hu : u = t
  · subst hu
    rw [Function.update_self, hp, h.phase u]
  · rw [Function.update_of_ne hu, h.phase u]

/-- **The refinement.** A step of the code is one of the guarded machine, or is not seen there. -/
theorem Refines.step (h : Refines s g) {a : Act Op θ} (hs : Step O s a s') :
    match seen s a with
    | none => Refines s' g
    | some b => ∃ g', Guarded.Step O g b g' ∧ Refines s' g' := by
  cases step_moves hs with
  | @lock t o hp =>
    refine ⟨g.setPhase t (.waiting o), ?_, h.data, h.done, h.locked, phase_update h.phase rfl⟩
    show g.step O (.call t o) = _
    rw [Guarded.State.step, h.phase t, hp]
    rfl
  | @tryLock t o hp =>
    refine ⟨g.setPhase t (.waiting o), ?_, h.data, h.done, h.locked, phase_update h.phase rfl⟩
    show g.step O (.call t o) = _
    rw [Guarded.State.step, h.phase t, hp]
    rfl
  | @busy t o hp hl =>
    rw [seen, hp, hl]
    exact h.unseen (by rw [hp]; rfl)
  | @giveUp t o hp hl =>
    rw [seen, hp, hl]
    refine ⟨g.setPhase t .idle, ?_, h.data, h.done, h.locked, phase_update h.phase rfl⟩
    show g.step O (.giveUp t) = _
    rw [Guarded.State.step, h.phase t, hp]
    rfl
  | @enter t o isTry hp hl =>
    rw [seen, hp, hl]
    have hfree : g.holder = none := by
      rw [← Option.isNone_iff_eq_none, ← Option.isSome_eq_false_iff, h.locked]
      exact hl
    refine ⟨{ g.setPhase t (.inside o (O.body o) (O.entry o)) with holder := some t }, ?_,
      h.data, h.done, rfl, phase_update h.phase rfl⟩
    show g.step O (.acquire t) = _
    rw [Guarded.State.step, h.phase t, hp, hfree]
    rfl
  | @spin t o hp hl =>
    rw [seen, hp]
    exact h
  | @retry t o hp hl =>
    rw [seen, hp]
    exact h.unseen (by rw [hp]; rfl)
  | @work t o f fs r x hp hx =>
    rw [seen, hp]
    refine ⟨{ g.setPhase t (.inside o fs x.2) with data := x.1 }, ?_, rfl, h.done, h.locked,
      phase_update h.phase rfl⟩
    show g.step O (.work t) = _
    rw [Guarded.State.step, h.phase t, hp]
    dsimp only [Pc.phase]
    rw [h.data, hx]
    rfl
  | @leave t o r hp =>
    rw [seen, hp]
    refine ⟨{ g.setPhase t .idle with holder := none, done := g.done ++ [(t, o, r)] }, ?_,
      h.data, by rw [h.done]; rfl, rfl, phase_update h.phase rfl⟩
    show g.step O (.release t) = _
    rw [Guarded.State.step, h.phase t, hp]
    rfl

/-! ## Operations in progress -/

/-- The operation that a thread is about. -/
def Pc.op : Pc D ρ Op → Option Op
  | .idle => none
  | .exchange o _ => some o
  | .load o => some o
  | .inside o _ _ => some o

/-- The operation that a step starts. -/
def Act.call : Act Op θ → Option (θ × Op)
  | .lock t o => some (t, o)
  | .tryLock t o => some (t, o)
  | .exec _ => none

theorem op_setPc {t u : θ} {p : Pc D ρ Op} {o : Op} (h : ((s.setPc t p).pc u).op = some o) :
    u = t ∧ p.op = some o ∨ u ≠ t ∧ (s.pc u).op = some o := by
  unfold State.setPc at h
  dsimp only at h
  by_cases hu : u = t
  · subst hu
    rw [Function.update_self] at h
    exact Or.inl ⟨rfl, h⟩
  · rw [Function.update_of_ne hu] at h
    exact Or.inr ⟨hu, h⟩

/-- What a step does to the operations: one may be done with it, and that thread is idle then;
otherwise each operation that is in progress after it was so before, or starts with it. -/
theorem step_ops {a : Act Op θ} (hs : Step O s a s') :
    (s'.done = s.done ∧
      ∀ u o, (s'.pc u).op = some o → (s.pc u).op = some o ∨ a.call = some (u, o)) ∨
    ∃ t o r, (s.pc t).op = some o ∧ s'.done = s.done ++ [(t, o, r)] ∧
      ∀ u o', (s'.pc u).op = some o' → u ≠ t ∧ (s.pc u).op = some o' := by
  have hmove : ∀ {t : θ} {p : Pc D ρ Op}, (∀ o, p.op = some o → (s.pc t).op = some o) →
      ∀ u o, ((s.setPc t p).pc u).op = some o → (s.pc u).op = some o ∨ a.call = some (u, o) := by
    intro t p hp u o h
    rcases op_setPc h with ⟨rfl, h'⟩ | ⟨_, h'⟩
    · exact Or.inl (hp o h')
    · exact Or.inl h'
  have hstart : ∀ {t : θ} {p : Pc D ρ Op} {o' : Op}, p.op = some o' → a.call = some (t, o') →
      ∀ u o, ((s.setPc t p).pc u).op = some o → (s.pc u).op = some o ∨ a.call = some (u, o) := by
    intro t p o' hp hcall u o h
    rcases op_setPc h with ⟨rfl, h'⟩ | ⟨_, h'⟩
    · rw [hp] at h'
      cases h'
      exact Or.inr hcall
    · exact Or.inl h'
  cases step_moves hs with
  | lock hp => exact Or.inl ⟨rfl, hstart rfl rfl⟩
  | tryLock hp => exact Or.inl ⟨rfl, hstart rfl rfl⟩
  | busy hp hl => exact Or.inl ⟨rfl, hmove fun o ho => by rw [hp]; exact ho⟩
  | giveUp hp hl => exact Or.inl ⟨rfl, hmove fun _ e => by cases e⟩
  | enter hp hl => exact Or.inl ⟨rfl, hmove fun o ho => by rw [hp]; exact ho⟩
  | spin hp hl => exact Or.inl ⟨rfl, fun u o h => Or.inl h⟩
  | retry hp hl => exact Or.inl ⟨rfl, hmove fun o ho => by rw [hp]; exact ho⟩
  | work hp hx => exact Or.inl ⟨rfl, hmove fun o ho => by rw [hp]; exact ho⟩
  | @leave t o r hp =>
    refine Or.inr ⟨t, o, r, by rw [hp]; rfl, rfl, fun u o' h => ?_⟩
    rcases op_setPc h with ⟨_, h⟩ | ⟨hu, h⟩
    · cases h
    · exact ⟨hu, h⟩

/-! ## Runs -/

/-- Each run of the code is one of the guarded machine. -/
theorem exists_guarded_run {d₀ : D} {as : List (Act Op θ)} (hrun : Run (Step O) (.start d₀) as s) :
    ∃ bs g, Run (Guarded.Step O) (.start d₀) bs g ∧ Refines s g := by
  refine hrun.invariant (I := fun s => ∃ bs g, Run (Guarded.Step O) (.start d₀) bs g ∧ Refines s g)
    (C := fun _ _ => True) (fun s a s' ⟨bs, g, hg, hR⟩ _ hs => ?_) (along_true _ _)
    ⟨[], .start d₀, .nil _, refines_start d₀⟩
  have hstep := hR.step hs
  cases hseen : seen s a with
  | none =>
    rw [hseen] at hstep
    exact ⟨bs, g, hg, hstep⟩
  | some b =>
    rw [hseen] at hstep
    obtain ⟨g', hg', hR'⟩ := hstep
    exact ⟨bs ++ [b], g', hg.append (.cons hg' (.nil _)), hR'⟩

/-- Operations behind the lock: at most one thread is inside, and the flag tells whether one is; the
data and the results are those of running the operations that are done one after the other, in the
order in which they released the lock, and what is left of the operation inside will complete it in
the same way; a thread that wants the lock when it is free has it after at most two steps of its
own. -/
structure Atomic (O : Object D ρ Op) (d₀ : D) (s : State D ρ Op θ) : Prop where
  mutex : ∀ t u, s.Inside t → s.Inside u → t = u
  locked : s.locked = true ↔ ∃ t, s.Inside t
  serial : ∃ d, Replays O d₀ s.done d ∧ (s.locked = false → s.data = d) ∧
    ∀ t o left r, s.pc t = .inside o left r → finish left (s.data, r) = O.run o d
  progress : s.locked = false → ∀ t o, s.Wants t o → ∃ n s', n ≤ 2 ∧
    Run (Step O) s (List.replicate n (.exec t)) s' ∧ s'.pc t = .inside o (O.body o) (O.entry o)

omit [DecidableEq θ] in
theorem Refines.inside_iff (h : Refines s g) (t : θ) : g.Inside t ↔ s.Inside t := by
  unfold Guarded.State.Inside State.Inside
  rw [h.phase t]
  cases s.pc t with
  | idle => exact ⟨fun ⟨_, _, _, e⟩ => (by cases e), fun ⟨_, _, _, e⟩ => (by cases e)⟩
  | exchange _ _ => exact ⟨fun ⟨_, _, _, e⟩ => (by cases e), fun ⟨_, _, _, e⟩ => (by cases e)⟩
  | load _ => exact ⟨fun ⟨_, _, _, e⟩ => (by cases e), fun ⟨_, _, _, e⟩ => (by cases e)⟩
  | inside o left r => exact ⟨fun _ => ⟨o, left, r, rfl⟩, fun _ => ⟨o, left, r, rfl⟩⟩

/-- The exchange on a free lock. -/
theorem step_exchange (hl : s.locked = false) {t : θ} {o : Op} (hp : s.pc t = .exchange o false) :
    ∃ s', Step O s (.exec t) s' ∧ s'.pc t = .inside o (O.body o) (O.entry o) := by
  refine ⟨{ s with locked := true }.setPc t (.inside o (O.body o) (O.entry o)), ?_,
    Function.update_self _ _ _⟩
  show s.exec O t = _
  unfold State.exec
  rw [hp]
  dsimp only
  rw [hl, if_neg Bool.false_ne_true]

theorem exists_progress (hl : s.locked = false) {t : θ} {o : Op} (h : s.Wants t o) :
    ∃ n s', n ≤ 2 ∧ Run (Step O) s (List.replicate n (.exec t)) s' ∧
      s'.pc t = .inside o (O.body o) (O.entry o) := by
  rcases h with hp | hp
  · obtain ⟨s', hs', hin⟩ := step_exchange (O := O) hl hp
    exact ⟨1, s', Nat.le_succ 1, .cons hs' (.nil _), hin⟩
  · have hload : Step O s (.exec t) (s.setPc t (.exchange o false)) := by
      show s.exec O t = _
      unfold State.exec
      rw [hp]
      dsimp only
      rw [hl, if_neg Bool.false_ne_true]
    obtain ⟨s', hs', hin⟩ := step_exchange (O := O) (s := s.setPc t (.exchange o false)) hl
      (Function.update_self _ _ _)
    exact ⟨2, s', Nat.le.refl, .cons hload (.cons hs' (.nil _)), hin⟩

theorem Refines.atomic {d₀ : D} (h : Refines s g) (hg : Serial O d₀ g) : Atomic O d₀ s := by
  have hholder : ∀ t, s.Inside t ↔ g.holder = some t := fun t => by
    rw [← h.inside_iff t, hg.mutex t]
  refine ⟨fun t u ht hu => ?_, ?_, ?_, fun hl t o hw => exists_progress hl hw⟩
  · rw [hholder] at ht hu
    exact Option.some.inj (ht.symm.trans hu)
  · rw [← h.locked, Option.isSome_iff_exists]
    exact exists_congr fun t => (hholder t).symm
  · obtain ⟨d, hrep, hopen⟩ := hg.serial
    rw [h.done] at hrep
    unfold Open at hopen
    refine ⟨d, hrep, fun hl => ?_, fun t o left r hp => ?_⟩
    · rw [← h.locked, Option.isSome_eq_false_iff, Option.isNone_iff_eq_none] at hl
      rw [hl] at hopen
      rw [← h.data, hopen]
    · rw [(hholder t).1 ⟨o, left, r, hp⟩] at hopen
      obtain ⟨o', left', r', hphase, hfin⟩ := hopen
      rw [h.phase t, hp] at hphase
      cases hphase
      rw [← h.data, hfin]

/-- **Operations behind a spin lock are atomic**, whatever the threads do and in which order. -/
theorem spinlock_atomic (O : Object D ρ Op) (d₀ : D) (as : List (Act Op θ)) (s : State D ρ Op θ)
    (hrun : Run (Step O) (.start d₀) as s) : Atomic O d₀ s := by
  obtain ⟨bs, g, hg, hR⟩ := exists_guarded_run hrun
  exact hR.atomic (serial_run hg)

end

/-! ## What a thread has done -/

/-- The operations that a thread has finished, in order, and the one that it is about. -/
def State.history [DecidableEq θ] (s : State D ρ Op θ) (t : θ) : List Op :=
  s.done.filterMap (fun x => if x.1 = t then some x.2.1 else none) ++ (s.pc t).op.toList

/-- The operations that a thread starts, in order. -/
def callsOf [DecidableEq θ] (t : θ) (as : List (Act Op θ)) : List Op :=
  as.filterMap fun a => a.call.bind fun x => if x.1 = t then some x.2 else none

/-- No thread is in `try_lock`. -/
def State.Patient (s : State D ρ Op θ) : Prop := ∀ t o, s.pc t ≠ .exchange o true

section

variable [DecidableEq θ] {O : Object D ρ Op} {s s' : State D ρ Op θ}

omit [DecidableEq θ] in
theorem patient_start (d : D) : (State.start d : State D ρ Op θ).Patient :=
  fun _ _ e => by cases e

theorem State.Patient.setPc (h : s.Patient) {t : θ} {p : Pc D ρ Op}
    (hp : ∀ o, p ≠ .exchange o true) : (s.setPc t p).Patient := by
  intro u o
  show Function.update s.pc t p u ≠ _
  by_cases hu : u = t
  · rw [hu, Function.update_self]
    exact hp o
  · rw [Function.update_of_ne hu]
    exact h u o

theorem history_setPc_ne {t u : θ} (p : Pc D ρ Op) (h : u ≠ t) :
    (s.setPc t p).history u = s.history u := by
  show _ ++ (Function.update s.pc t p u).op.toList = _
  rw [Function.update_of_ne h]
  rfl

/-- A thread goes on with its operation. -/
theorem history_keep {t : θ} {p : Pc D ρ Op} (hp : p.op = (s.pc t).op) (u : θ) :
    (s.setPc t p).history u = s.history u := by
  by_cases hu : u = t
  · subst hu
    show _ ++ (Function.update s.pc u p u).op.toList = _
    rw [Function.update_self, hp]
    rfl
  · exact history_setPc_ne p hu

/-- A thread starts an operation. -/
theorem history_begin {t : θ} {p : Pc D ρ Op} {o : Op} (hidle : (s.pc t).op = none)
    (hp : p.op = some o) (u : θ) :
    (s.setPc t p).history u = s.history u ++ (if t = u then [o] else []) := by
  by_cases hu : u = t
  · subst hu
    show _ ++ (Function.update s.pc u p u).op.toList = (_ ++ (s.pc u).op.toList) ++ _
    rw [Function.update_self, hp, hidle, if_pos rfl, Option.toList_none, List.append_nil]
    rfl
  · rw [history_setPc_ne p hu, if_neg (Ne.symm hu), List.append_nil]

/-- A thread is done with its operation. -/
theorem history_finish {t : θ} {o : Op} (h : (s.pc t).op = some o) (l : Bool) (r : ρ) (u : θ) :
    ({ s with locked := l, done := s.done ++ [(t, o, r)] }.setPc t .idle).history u =
      s.history u := by
  by_cases hu : u = t
  · subst hu
    show List.filterMap _ (s.done ++ [(u, o, r)]) ++ (Function.update s.pc u .idle u).op.toList =
      _ ++ (s.pc u).op.toList
    rw [Function.update_self, h, List.filterMap_append, List.filterMap_cons, if_pos rfl,
      List.filterMap_nil]
    exact List.append_nil _
  · rw [history_setPc_ne _ hu]
    show List.filterMap _ (s.done ++ [(t, o, r)]) ++ (s.pc u).op.toList = _ ++ (s.pc u).op.toList
    rw [List.filterMap_append, List.filterMap_cons, if_neg (Ne.symm hu), List.filterMap_nil,
      List.append_nil]

theorem mem_history_done {t : θ} {o : Op} {r : ρ} (h : (t, o, r) ∈ s.done) : o ∈ s.history t :=
  List.mem_append_left _ (List.mem_filterMap.2 ⟨_, h, if_pos rfl⟩)

theorem mem_history_pc {t : θ} {o : Op} (h : (s.pc t).op = some o) : o ∈ s.history t :=
  List.mem_append_right _ (Option.mem_toList.2 h)

theorem mem_callsOf {t : θ} {o : Op} {as : List (Act Op θ)} :
    o ∈ callsOf t as ↔ .lock t o ∈ as ∨ .tryLock t o ∈ as := by
  unfold callsOf
  rw [List.mem_filterMap]
  constructor
  · rintro ⟨a, ha, h⟩
    obtain ⟨⟨u, o'⟩, hcall, hu⟩ := Option.bind_eq_some_iff.1 h
    dsimp only at hu
    split_ifs at hu with he
    cases hu
    subst he
    cases a with
    | lock _ _ => cases hcall; exact Or.inl ha
    | tryLock _ _ => cases hcall; exact Or.inr ha
    | exec _ => cases hcall
  · rintro (h | h)
    · exact ⟨_, h, if_pos rfl⟩
    · exact ⟨_, h, if_pos rfl⟩

theorem callsOf_lock (t u : θ) (o : Op) :
    callsOf u [(.lock t o : Act Op θ)] = if t = u then [o] else [] := by
  unfold callsOf
  by_cases h : t = u
  · rw [if_pos h]
    exact List.filterMap_cons_some (if_pos h)
  · rw [if_neg h]
    exact List.filterMap_cons_none (if_neg h)

/-- One step. -/
theorem step_history {a : Act Op θ} (hs : Step O s a s') (h : s.Patient)
    (ha : ∀ t o, a ≠ .tryLock t o) :
    s'.Patient ∧ ∀ u, s'.history u = s.history u ++ callsOf u [a] := by
  cases step_moves hs with
  | @lock t o hp =>
    refine ⟨h.setPc (fun _ e => by cases e), fun u => ?_⟩
    rw [history_begin (o := o) (by rw [hp]; rfl) rfl u, callsOf_lock]
  | @tryLock t o hp => exact absurd rfl (ha t o)
  | busy hp hl =>
    exact ⟨h.setPc (fun _ e => by cases e), fun u =>
      (history_keep (by rw [hp]; rfl) u).trans (List.append_nil _).symm⟩
  | @giveUp t o hp hl => exact absurd hp (h t o)
  | enter hp hl =>
    exact ⟨State.Patient.setPc (s := { s with locked := true }) h (fun _ e => by cases e), fun u =>
      (history_keep (s := { s with locked := true }) (by rw [hp]; rfl) u).trans
        (List.append_nil _).symm⟩
  | spin hp hl => exact ⟨h, fun u => (List.append_nil _).symm⟩
  | retry hp hl =>
    exact ⟨h.setPc (fun _ e => by cases e), fun u =>
      (history_keep (by rw [hp]; rfl) u).trans (List.append_nil _).symm⟩
  | @work t o f fs r x hp hx =>
    exact ⟨State.Patient.setPc (s := { s with data := x.1 }) h (fun _ e => by cases e), fun u =>
      (history_keep (s := { s with data := x.1 }) (by rw [hp]; rfl) u).trans
        (List.append_nil _).symm⟩
  | @leave t o r hp =>
    exact ⟨State.Patient.setPc (s := { s with locked := false, done := s.done ++ [(t, o, r)] })
      h (fun _ e => by cases e), fun u =>
      (history_finish (by rw [hp]; rfl) false r u).trans (List.append_nil _).symm⟩

/-- **No operation is lost, and none is done twice**: behind `lock`, each is done or in progress, in
the order in which its thread started them. -/
theorem run_history {as : List (Act Op θ)} (hrun : Run (Step O) s as s') (h : s.Patient)
    (ha : ∀ t o, .tryLock t o ∉ as) (u : θ) : s'.history u = s.history u ++ callsOf u as := by
  induction hrun with
  | nil s => exact (List.append_nil _).symm
  | @cons s s₁ s' a as hs _ ih =>
    obtain ⟨hpat, hhist⟩ := step_history hs h fun t o e => ha t o (e ▸ List.mem_cons_self)
    rw [ih hpat fun t o hm => ha t o (List.mem_cons_of_mem a hm), hhist u, List.append_assoc]
    congr 1
    exact (List.filterMap_append (l := [a])).symm

end

/-- A counter; an operation loads it into the register, then stores the register and one more. -/
def counter : Object Nat Nat Unit where
  entry _ := 0
  body _ := [fun d _ => some (d, d), fun _ r => some (r + 1, r)]

/-- Thread `1` comes while thread `0` is inside, waits in the inner loop, and goes in when the flag
is free again. -/
def counterRun : List (Act Unit Bool) :=
  [.lock false (), .exec false, .exec false, .lock true (), .exec true, .exec true, .exec false,
    .exec false, .exec true, .exec true, .exec true, .exec true, .exec true]

theorem spinlock_atomic_sample : ∃ s, Run (Step counter) (.start 0) counterRun s ∧
    (s.data, s.done) = (2, [(false, (), 0), (true, (), 1)]) ∧ Atomic counter 0 s := by
  have h : ∃ s, Run (Step counter) (.start 0) counterRun s ∧
      ((s.data, s.done) == (2, [(false, (), 0), (true, (), 1)])) = true :=
    run_of_any (fun _ _ _ => Iff.rfl) (by decide)
  obtain ⟨s, hrun, hs⟩ := h
  exact ⟨s, hrun, eq_of_beq hs, spinlock_atomic counter 0 counterRun s hrun⟩

end SpinLock

end Ospp
