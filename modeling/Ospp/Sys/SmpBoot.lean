import Mathlib.Tactic
import Ospp.Lib.Trans
import Ospp.Lib.Word
import Ospp.Mm.TlbShootdown

/-!
# Starting the application processors

`CoreManager::init_bsp` and `CoreManager::init` on the boot processor, `warm_start_16` and
`warm_start_32` on the others. The boot processor gives each core a stack, writes its top to
`smp_stack_top` and sends INIT and STARTUP interrupts, up to three rounds; what it waits between
them is not part of the state, since every other step may come in between. Interrupts are messages
in flight and are delivered in any order, after any delay.

There is one `smp_stack_top` for all processors. A processor reads it at some time after a STARTUP
interrupt reached it, when the boot processor may have given up on it and written the stack of the
next core. `own_stacks_iff`: the runs in which every processor runs on its own stack are those in
which each reads `smp_stack_top` while it holds what was written for it.
-/

namespace Ospp

open Trans

/-- The table of cores and the boot processor's stack. -/
structure BootCores extends Cores where
  bspApicId : UInt8
  /-- The address of `stack`. -/
  bootStack : ℕ
  bootStack_aligned : bootStack % 4096 = 0
  bootStack_lt : bootStack + 4096 < 4294967296

/-- `core.is_bsp`. -/
def BootCores.isBsp (cs : BootCores) (i : ℕ) : Bool := cs.apicId i == cs.bspApicId

/-- Where the boot processor is; `i` is the core its loop looks at, `r` the round. -/
inductive BspPhase where
  | initBsp (i : ℕ)
  | init (i : ℕ)
  /-- The stack and its anchor are set up. -/
  | publish (i : ℕ)
  | sendInit (i r : ℕ)
  | sendStartup (i r : ℕ)
  | check (i r : ℕ)
  | done
  deriving DecidableEq, Repr

inductive Ipi where
  | init
  | startup
  deriving DecidableEq, Repr

/-- Where an application processor is. -/
inductive ApPhase where
  /-- Waiting for a STARTUP interrupt. -/
  | waiting
  /-- In `warm_start_16`, before it loads `esp`. -/
  | trampoline
  /-- In `warm_start_32`, before it has found its core. -/
  | entered (esp : ℕ)
  /-- `initialized` is set; in `_pause`. -/
  | ready (esp : ℕ)
  /-- There is no core in the anchor. -/
  | panicked (esp : ℕ)
  deriving DecidableEq, Repr

/-- The top of the stack the processor runs on. -/
def ApPhase.stackTop : ApPhase → Option ℕ
  | .waiting => none
  | .trampoline => none
  | .entered esp => some esp
  | .ready esp => some esp
  | .panicked esp => some esp

structure BootState where
  phase : BspPhase
  smpStackTop : ℕ
  /-- `core.stack.region_base`. -/
  region : ℕ → Option ℕ
  /-- The core in the anchor at the base of a stack; `none` also where there is no anchor. -/
  anchorCore : ℕ → Option ℕ
  initialized : ℕ → Bool
  inflight : List (UInt8 × Ipi)
  ap : UInt8 → ApPhase
  /-- The core for which `smp_stack_top` was last written. -/
  published : Option ℕ

/-- What can happen next. -/
inductive BootAct where
  /-- `new BaseCoreStack` returns the address, and descriptor and anchor are filled in. -/
  | newStack (base : ℕ)
  /-- Any other step of the boot processor. -/
  | advance
  /-- The interrupt in place `k` is delivered. -/
  | deliver (k : ℕ)
  /-- The processor executes `movl smp_stack_top, %esp` and calls `warm_start_32`. -/
  | load (x : UInt8)
  /-- `warm_start_32` looks up its core with `depth` bytes on the stack and sets its flag. -/
  | enter (x : UInt8) (depth : ℕ)
  deriving DecidableEq, Repr

namespace BootState

/-- The manager is constructed; no stack has been given out. -/
def boot : BootState :=
  ⟨.initBsp 0, 0, fun _ => none, fun _ => none, fun _ => false, [], fun _ => .waiting, none⟩

/-- A step of the boot processor other than the allocation of a stack. -/
def advance (cs : BootCores) (s : BootState) : Option BootState :=
  match s.phase with
  | .initBsp i =>
    if i < cs.count then
      if cs.isBsp i then
        some { s with
          phase := .init 0
          region := Function.update s.region i (some cs.bootStack)
          anchorCore := Function.update s.anchorCore cs.bootStack (some i)
          initialized := Function.update s.initialized i true }
      else some { s with phase := .initBsp (i + 1) }
    else some { s with phase := .init 0 }
  | .init i =>
    if i < cs.count then
      -- for the other cores the next step is `newStack`
      if cs.isBsp i then some { s with phase := .init (i + 1) } else none
    else some { s with phase := .done }
  | .publish i =>
    match s.region i with
    | none => none
    | some base =>
      some { s with
        phase := .sendInit i 0, smpStackTop := Word32.add base 4096, published := some i }
  | .sendInit i r =>
    some { s with phase := .sendStartup i r, inflight := s.inflight ++ [(cs.apicId i, .init)] }
  | .sendStartup i r =>
    some { s with phase := .check i r, inflight := s.inflight ++ [(cs.apicId i, .startup)] }
  | .check i r =>
    if s.initialized i then some { s with phase := .init (i + 1) }
    else if r + 1 < 3 then some { s with phase := .sendInit i (r + 1) }
    else some { s with phase := .init (i + 1) }
  | .done => none

/-- `anchor_from_sp`. -/
def anchorFromSp (sp : ℕ) : ℕ := Word32.alignDown sp 4096

def step (cs : BootCores) (s : BootState) : BootAct → Option BootState
  | .newStack base =>
    match s.phase with
    | .init i =>
      if i < cs.count ∧ cs.isBsp i = false ∧
          -- an aligned block of the heap that is in nobody's use
          base % 4096 = 0 ∧ base + 4096 < 4294967296 ∧ base ≠ cs.bootStack ∧
          s.anchorCore base = none then
        some { s with
          phase := .publish i
          region := Function.update s.region i (some base)
          anchorCore := Function.update s.anchorCore base (some i) }
      else none
    | _ => none
  | .advance => s.advance cs
  | .deliver k =>
    match s.inflight[k]? with
    | none => none
    | some (x, .init) =>
      some { s with inflight := s.inflight.eraseIdx k, ap := Function.update s.ap x .waiting }
    | some (x, .startup) =>
      some { s with
        inflight := s.inflight.eraseIdx k
        -- ignored unless the processor waits for it
        ap := if s.ap x = .waiting then Function.update s.ap x .trampoline else s.ap }
  | .load x =>
    if s.ap x = .trampoline then
      some { s with ap := Function.update s.ap x (.entered s.smpStackTop) }
    else none
  | .enter x depth =>
    match s.ap x with
    | .entered esp =>
      -- the anchor takes the first 16 bytes of the stack
      if 0 < depth ∧ depth ≤ 4080 then
        match s.anchorCore (anchorFromSp (Word32.sub esp depth)) with
        | none => some { s with ap := Function.update s.ap x (.panicked esp) }
        | some i =>
          some { s with
            ap := Function.update s.ap x (.ready esp)
            initialized := Function.update s.initialized i true }
      else none
    | _ => none

def Step (cs : BootCores) (s : BootState) (a : BootAct) (s' : BootState) : Prop :=
  s.step cs a = some s'

/-- The processor `x` with the given stack runs on the stack of its core. -/
def OnOwnStack (cs : BootCores) (s : BootState) (x : UInt8) (esp : ℕ) : Prop :=
  ∃ i < cs.count, cs.apicId i = x ∧ ∃ base, s.region i = some base ∧ esp = base + 4096 ∧
    s.anchorCore base = some i

/-- Every processor runs on its own stack, and no two on the same. -/
structure OwnStacks (cs : BootCores) (s : BootState) : Prop where
  own : ∀ x esp, (s.ap x).stackTop = some esp → s.OnOwnStack cs x esp
  disjoint : ∀ x y esp, (s.ap x).stackTop = some esp → (s.ap y).stackTop = some esp → x = y
  notBoot : ∀ x, (s.ap x).stackTop ≠ some (cs.bootStack + 4096)

/-- The guarantee for one step: the state it leads to has `OwnStacks`, and a processor that looks
for its core finds it and sets the flag of that core and no other. -/
def Safe (cs : BootCores) (s : BootState) (a : BootAct) : Prop :=
  ∀ s', s.Step cs a s' → s'.OwnStacks cs ∧
    ∀ x depth, a = .enter x depth → ∃ i < cs.count, cs.apicId i = x ∧
      (∃ esp, s'.ap x = .ready esp) ∧ s'.initialized = Function.update s.initialized i true

/-- `smp_stack_top` is read while it holds what was written for the reader. -/
def onTime (cs : BootCores) (s : BootState) : BootAct → Bool
  | .load x => s.ap x != .trampoline || s.published.any fun i => cs.apicId i == x
  | _ => true

/-! ## The invariant -/

/-- The cores below this index have had their turn, or have it and `smp_stack_top` is theirs. -/
def reach (cs : BootCores) (s : BootState) : ℕ :=
  match s.phase with
  | .initBsp _ => 0
  | .init i => i
  | .publish i => i
  | .sendInit i _ => i + 1
  | .sendStartup i _ => i + 1
  | .check i _ => i + 1
  | .done => cs.count

/-- The core that is being started. -/
def target (s : BootState) : Option ℕ :=
  match s.phase with
  | .sendInit i _ => some i
  | .sendStartup i _ => some i
  | .check i _ => some i
  | _ => none

structure Inv (cs : BootCores) (s : BootState) : Prop where
  region : ∀ i base, s.region i = some base → i < cs.count ∧ base % 4096 = 0 ∧
    base + 4096 < 4294967296 ∧ s.anchorCore base = some i ∧
    (cs.isBsp i = true ∨ base ≠ cs.bootStack)
  published : ∀ i, s.published = some i → i < s.reach cs ∧ cs.isBsp i = false ∧
    ∃ base, s.region i = some base ∧ s.smpStackTop = base + 4096
  running : ∀ x esp, (s.ap x).stackTop = some esp → ∃ i < s.reach cs, cs.isBsp i = false ∧
    cs.apicId i = x ∧ ∃ base, s.region i = some base ∧ esp = base + 4096
  unpublished : s.published = none → s.inflight = [] ∧ ∀ x, s.ap x = .waiting
  reach_le : s.reach cs ≤ cs.count
  starting : ∀ i, s.target = some i → s.published = some i
  noRegion : ∀ i, s.phase = .initBsp i → ∀ j, s.region j = none
  publishing : ∀ i, s.phase = .publish i → i < cs.count ∧ cs.isBsp i = false

theorem inv_boot (cs : BootCores) : Inv cs boot where
  region := fun _ _ h => by cases h
  published := fun _ h => by cases h
  running := fun _ _ h => by cases h
  unpublished := fun _ => ⟨rfl, fun _ => rfl⟩
  reach_le := Nat.zero_le _
  starting := fun _ h => by cases h
  noRegion := fun _ _ _ => rfl
  publishing := fun _ h => by cases h

section

variable {cs : BootCores} {s s' : BootState}

/-- What a core's stack says about it. -/
theorem Inv.unique (hI : Inv cs s) {i j base : ℕ} (hi : s.region i = some base)
    (hj : s.region j = some base) : i = j := by
  obtain ⟨_, _, _, hai, _⟩ := hI.region i base hi
  obtain ⟨_, _, _, haj, _⟩ := hI.region j base hj
  rw [hai] at haj
  exact Option.some.inj haj

theorem Inv.onOwnStack (hI : Inv cs s) {x : UInt8} {esp : ℕ}
    (h : (s.ap x).stackTop = some esp) : s.OnOwnStack cs x esp := by
  obtain ⟨i, hi, _, hx, base, hr, he⟩ := hI.running x esp h
  obtain ⟨hlt, _, _, ha, _⟩ := hI.region i base hr
  exact ⟨i, hlt, hx, base, hr, he, ha⟩

theorem Inv.ownStacks (hI : Inv cs s) : s.OwnStacks cs where
  own := fun _ _ h => hI.onOwnStack h
  disjoint := by
    intro x y esp hx hy
    obtain ⟨i, _, _, hix, b, hb, he⟩ := hI.running x esp hx
    obtain ⟨j, _, _, hjy, b', hb', he'⟩ := hI.running y esp hy
    have hbb : b' = b := by omega
    subst hbb
    rw [← hix, ← hjy, hI.unique hb hb']
  notBoot := by
    intro x hx
    obtain ⟨i, _, hbsp, _, b, hb, he⟩ := hI.running x _ hx
    obtain ⟨_, _, _, _, hor⟩ := hI.region i b hb
    rcases hor with h | h
    · rw [hbsp] at h; cases h
    · omega

/-- A stack pointer inside a stack leads to its anchor. -/
theorem anchorFromSp_eq {base depth : ℕ} (hb : base % 4096 = 0) (hlt : base + 4096 < 4294967296)
    (hd : 0 < depth) (hd' : depth ≤ 4080) :
    anchorFromSp (Word32.sub (base + 4096) depth) = base := by
  rw [Word32.sub_eq (by omega) (by omega)]
  unfold anchorFromSp
  rw [show (4096 : ℕ) = 2 ^ 12 from rfl, Word32.alignDown_two_pow (by omega) (by norm_num)]
  omega

/-! ## One step -/

/-- A step of the boot processor that only moves it on. -/
theorem Inv.move (hI : Inv cs s) {p : BspPhase}
    (hreach : s.reach cs ≤ reach cs { s with phase := p })
    (hle : reach cs { s with phase := p } ≤ cs.count)
    (htarget : ∀ i, target { s with phase := p } = some i → s.published = some i)
    (hinit : ∀ i, p = .initBsp i → ∃ j, s.phase = .initBsp j)
    (hpub : ∀ i, p = .publish i → i < cs.count ∧ cs.isBsp i = false) :
    Inv cs { s with phase := p } where
  region := hI.region
  published := fun i hi => by
    obtain ⟨hlt, h⟩ := hI.published i hi
    exact ⟨by omega, h⟩
  running := fun x esp hx => by
    obtain ⟨i, hlt, h⟩ := hI.running x esp hx
    exact ⟨i, by omega, h⟩
  unpublished := hI.unpublished
  reach_le := hle
  starting := htarget
  noRegion := fun i hi => by
    obtain ⟨j, hj⟩ := hinit i hi
    exact hI.noRegion j hj
  publishing := hpub

theorem inv_initBsp {i : ℕ} (hI : Inv cs s) (hp : s.phase = .initBsp i)
    (h : s.advance cs = some s') : Inv cs s' := by
  have hnone := hI.noRegion i hp
  have hreach : s.reach cs = 0 := by unfold reach; rw [hp]
  have hpub : s.published = none := by
    cases hpub : s.published with
    | none => rfl
    | some j =>
      have := (hI.published j hpub).1
      omega
  unfold advance at h
  rw [hp] at h
  simp only at h
  split_ifs at h with hlt hbsp
  · cases h
    refine ⟨?_, fun j hj => ?_, fun x esp hx => ?_, hI.unpublished, Nat.zero_le _, fun j hj => ?_,
      fun j hj => ?_, fun j hj => ?_⟩
    · intro j base hj
      by_cases hji : j = i
      · subst hji
        dsimp only at hj
        rw [Function.update_self] at hj
        cases hj
        exact ⟨hlt, cs.bootStack_aligned, cs.bootStack_lt, Function.update_self .., Or.inl hbsp⟩
      · dsimp only at hj
        rw [Function.update_of_ne hji, hnone] at hj
        cases hj
    · dsimp only at hj
      rw [hpub] at hj; cases hj
    · dsimp only at hx
      rw [(hI.unpublished hpub).2 x] at hx
      cases hx
    · cases hj
    · cases hj
    · cases hj
  · cases h
    exact hI.move (by rw [hreach]; exact Nat.zero_le _) (Nat.zero_le _) (fun j hj => by cases hj)
      (fun _ _ => ⟨i, hp⟩) (fun j hj => by cases hj)
  · cases h
    exact hI.move (by rw [hreach]; exact Nat.zero_le _) (Nat.zero_le _) (fun j hj => by cases hj)
      (fun j hj => by cases hj) (fun j hj => by cases hj)

theorem inv_init {i : ℕ} (hI : Inv cs s) (hp : s.phase = .init i)
    (h : s.advance cs = some s') : Inv cs s' := by
  have hreach : s.reach cs = i := by unfold reach; rw [hp]
  have hle := hI.reach_le
  unfold advance at h
  rw [hp] at h
  simp only at h
  split_ifs at h with hlt hbsp
  · cases h
    exact hI.move (by rw [hreach]; exact Nat.le_succ i) hlt (fun j hj => by cases hj)
      (fun j hj => by cases hj) (fun j hj => by cases hj)
  · cases h
    exact hI.move hle (le_refl _) (fun j hj => by cases hj)
      (fun j hj => by cases hj) (fun j hj => by cases hj)

theorem inv_publish {i : ℕ} (hI : Inv cs s) (hp : s.phase = .publish i)
    (h : s.advance cs = some s') : Inv cs s' := by
  have hreach : s.reach cs = i := by unfold reach; rw [hp]
  obtain ⟨hlt, hbsp⟩ := hI.publishing i hp
  unfold advance at h
  rw [hp] at h
  simp only at h
  cases hr : s.region i with
  | none => rw [hr] at h; cases h
  | some base =>
    rw [hr] at h
    cases h
    obtain ⟨_, _, hfit, _⟩ := hI.region i base hr
    refine ⟨hI.region, fun j hj => ?_, fun x esp hx => ?_, (fun hj => by cases hj), hlt,
      fun j hj => hj, (fun j hj => by cases hj), (fun j hj => by cases hj)⟩
    · cases hj
      exact ⟨Nat.lt_succ_self i, hbsp, base, hr, Word32.add_eq (by omega)⟩
    · obtain ⟨j, hj, hrest⟩ := hI.running x esp hx
      exact ⟨j, by show j < i + 1; omega, hrest⟩

theorem inv_send {i r : ℕ} {p : BspPhase} {m : UInt8 × Ipi} (hI : Inv cs s)
    (htarget : s.target = some i) (hreach : s.reach cs = i + 1)
    (hp : p = .sendStartup i r ∨ p = .check i r) :
    Inv cs { s with phase := p, inflight := s.inflight ++ [m] } := by
  have hpub := hI.starting i htarget
  have hle : i + 1 ≤ cs.count := hreach ▸ hI.reach_le
  have hmove : Inv cs { s with phase := p } := by
    refine hI.move ?_ ?_ ?_ ?_ ?_
    · rcases hp with rfl | rfl <;> exact hreach.le
    · rcases hp with rfl | rfl <;> exact hle
    · rcases hp with rfl | rfl <;> (intro j hj; cases hj; exact hpub)
    · rcases hp with rfl | rfl <;> (intro j hj; cases hj)
    · rcases hp with rfl | rfl <;> (intro j hj; cases hj)
  exact ⟨hmove.region, hmove.published, hmove.running,
    (fun hn => by dsimp only at hn; rw [hpub] at hn; cases hn), hmove.reach_le, hmove.starting,
    hmove.noRegion, hmove.publishing⟩

theorem inv_check {i r : ℕ} (hI : Inv cs s) (hp : s.phase = .check i r)
    (h : s.advance cs = some s') : Inv cs s' := by
  have hreach : s.reach cs = i + 1 := by unfold reach; rw [hp]
  have hpub := hI.starting i (by unfold target; rw [hp])
  have hle : i + 1 ≤ cs.count := hreach ▸ hI.reach_le
  have hnext : Inv cs { s with phase := .init (i + 1) } :=
    hI.move hreach.le hle (fun j hj => by cases hj) (fun j hj => by cases hj)
      (fun j hj => by cases hj)
  unfold advance at h
  rw [hp] at h
  simp only at h
  split_ifs at h
  · cases h
    exact hnext
  · cases h
    exact hI.move hreach.le hle (fun j hj => by cases hj; exact hpub)
      (fun j hj => by cases hj) (fun j hj => by cases hj)
  · cases h
    exact hnext

theorem inv_advance (hI : Inv cs s) (h : s.advance cs = some s') : Inv cs s' := by
  cases hp : s.phase with
  | initBsp i => exact inv_initBsp hI hp h
  | init i => exact inv_init hI hp h
  | publish i => exact inv_publish hI hp h
  | sendInit i r =>
    unfold advance at h
    rw [hp] at h
    cases h
    exact inv_send hI (by unfold target; rw [hp]) (by unfold reach; rw [hp]) (Or.inl rfl)
  | sendStartup i r =>
    unfold advance at h
    rw [hp] at h
    cases h
    exact inv_send hI (by unfold target; rw [hp]) (by unfold reach; rw [hp]) (Or.inr rfl)
  | check i r => exact inv_check hI hp h
  | done => unfold advance at h; rw [hp] at h; cases h

/-- The new stack is nobody else's, and the cores that may already run are behind. -/
theorem inv_newStack {base : ℕ} (hI : Inv cs s) (h : s.Step cs (.newStack base) s') :
    Inv cs s' := by
  unfold Step step at h
  cases hp : s.phase with
  | init i =>
    rw [hp] at h
    simp only at h
    split_ifs at h with hc
    obtain ⟨hlt, hbsp, halign, hfit, hboot, hfree⟩ := hc
    cases h
    have hreach : s.reach cs = i := by unfold reach; rw [hp]
    refine ⟨?_, fun j hj => ?_, fun x esp hx => ?_, hI.unpublished, hlt.le,
      (fun j hj => by cases hj), (fun j hj => by cases hj),
      (fun j hj => by cases hj; exact ⟨hlt, hbsp⟩)⟩
    · intro j b hj
      by_cases hji : j = i
      · subst hji
        dsimp only at hj
        rw [Function.update_self] at hj
        cases hj
        exact ⟨hlt, halign, hfit, Function.update_self .., Or.inr hboot⟩
      · dsimp only at hj
        rw [Function.update_of_ne hji] at hj
        obtain ⟨h1, h2, h3, h4, h5⟩ := hI.region j b hj
        refine ⟨h1, h2, h3, ?_, h5⟩
        have hne : b ≠ base := by rintro rfl; rw [hfree] at h4; cases h4
        dsimp only
        rw [Function.update_of_ne hne]
        exact h4
    · obtain ⟨hj1, hj2, b, hb, ht⟩ := hI.published j hj
      refine ⟨by show j < i; omega, hj2, b, ?_, ht⟩
      dsimp only
      rw [Function.update_of_ne (by omega)]
      exact hb
    · obtain ⟨j, hj1, hj2, hj3, b, hb, ht⟩ := hI.running x esp hx
      refine ⟨j, by show j < i; omega, hj2, hj3, b, ?_, ht⟩
      dsimp only
      rw [Function.update_of_ne (by omega)]
      exact hb
  | initBsp i => rw [hp] at h; cases h
  | publish i => rw [hp] at h; cases h
  | sendInit i r => rw [hp] at h; cases h
  | sendStartup i r => rw [hp] at h; cases h
  | check i r => rw [hp] at h; cases h
  | done => rw [hp] at h; cases h

/-- A step of one processor that leaves it where the invariant allows it. -/
theorem Inv.setAp (hI : Inv cs s) {x : UInt8} {p : ApPhase} {ms : List (UInt8 × Ipi)}
    {flags : ℕ → Bool} (hpub : s.published ≠ none)
    (hp : ∀ esp, p.stackTop = some esp → ∃ i < s.reach cs, cs.isBsp i = false ∧
      cs.apicId i = x ∧ ∃ base, s.region i = some base ∧ esp = base + 4096) :
    Inv cs { s with ap := Function.update s.ap x p, inflight := ms, initialized := flags } := by
  refine ⟨hI.region, hI.published, fun y esp hy => ?_, fun hn => absurd hn hpub, hI.reach_le,
    hI.starting, hI.noRegion, hI.publishing⟩
  by_cases hyx : y = x
  · subst hyx
    dsimp only at hy
    rw [Function.update_self] at hy
    exact hp esp hy
  · dsimp only at hy
    rw [Function.update_of_ne hyx] at hy
    exact hI.running y esp hy

theorem Inv.published_of_inflight (hI : Inv cs s) {k : ℕ} {m : UInt8 × Ipi}
    (hk : s.inflight[k]? = some m) : s.published ≠ none := by
  intro hn
  rw [(hI.unpublished hn).1] at hk
  cases hk

theorem Inv.published_of_ap (hI : Inv cs s) {x : UInt8} (hx : s.ap x ≠ .waiting) :
    s.published ≠ none := fun hn => hx ((hI.unpublished hn).2 x)

theorem inv_deliver {k : ℕ} (hI : Inv cs s) (h : s.Step cs (.deliver k) s') : Inv cs s' := by
  unfold Step step at h
  simp only at h
  cases hk : s.inflight[k]? with
  | none => rw [hk] at h; cases h
  | some m =>
    have hpub := hI.published_of_inflight hk
    obtain ⟨x, m⟩ := m
    rw [hk] at h
    cases m with
    | init =>
      cases h
      exact hI.setAp hpub fun esp he => by cases he
    | startup =>
      cases h
      split_ifs
      · exact hI.setAp hpub fun esp he => by cases he
      · exact ⟨hI.region, hI.published, hI.running, fun hn => absurd hn hpub, hI.reach_le,
          hI.starting, hI.noRegion, hI.publishing⟩

theorem inv_load {x : UInt8} (hI : Inv cs s) (hC : s.onTime cs (.load x) = true)
    (h : s.Step cs (.load x) s') : Inv cs s' := by
  unfold Step step at h
  simp only at h
  split_ifs at h with hx
  cases h
  have hpub := hI.published_of_ap (x := x) (by rw [hx]; exact fun h => by cases h)
  refine hI.setAp hpub fun esp he => ?_
  cases he
  obtain ⟨i, hi⟩ := Option.ne_none_iff_exists'.1 hpub
  have hix : cs.apicId i = x := by simpa [onTime, hx, hi] using hC
  obtain ⟨h1, h2, h3⟩ := hI.published i hi
  exact ⟨i, h1, h2, hix, h3⟩

/-- On its own stack a processor finds its own core. -/
theorem Inv.anchor_enter (hI : Inv cs s) {x : UInt8} {esp depth : ℕ} (hx : s.ap x = .entered esp)
    (hd : 0 < depth ∧ depth ≤ 4080) : ∃ i < cs.count, cs.apicId i = x ∧
      s.anchorCore (anchorFromSp (Word32.sub esp depth)) = some i := by
  obtain ⟨i, _, _, hix, base, hr, rfl⟩ := hI.running x esp (by rw [hx]; rfl)
  obtain ⟨hlt, halign, hfit, ha, _⟩ := hI.region i base hr
  refine ⟨i, hlt, hix, ?_⟩
  rw [anchorFromSp_eq halign hfit hd.1 hd.2]
  exact ha

/-- What `warm_start_32` does. -/
theorem step_enter (hI : Inv cs s) {x : UInt8} {depth : ℕ} (h : s.Step cs (.enter x depth) s') :
    ∃ i < cs.count, cs.apicId i = x ∧ ∃ esp, s.ap x = .entered esp ∧
      s' = { s with
        ap := Function.update s.ap x (.ready esp)
        initialized := Function.update s.initialized i true } := by
  unfold Step step at h
  simp only at h
  cases hx : s.ap x with
  | entered esp =>
    rw [hx] at h
    simp only at h
    split_ifs at h with hd
    obtain ⟨i, hi, hix, ha⟩ := hI.anchor_enter hx hd
    rw [ha] at h
    cases h
    exact ⟨i, hi, hix, esp, rfl, rfl⟩
  | waiting => rw [hx] at h; cases h
  | trampoline => rw [hx] at h; cases h
  | ready esp => rw [hx] at h; cases h
  | panicked esp => rw [hx] at h; cases h

theorem inv_enter {x : UInt8} {depth : ℕ} (hI : Inv cs s) (h : s.Step cs (.enter x depth) s') :
    Inv cs s' := by
  obtain ⟨i, _, _, esp, hx, rfl⟩ := step_enter hI h
  have hpub := hI.published_of_ap (x := x) (by rw [hx]; exact fun h => by cases h)
  exact hI.setAp hpub fun e he => hI.running x e (by rw [hx]; exact he)

/-- **One step.** Where `smp_stack_top` is read on time, every step keeps the invariant. -/
theorem inv_step {a : BootAct} (hI : Inv cs s) (hC : s.onTime cs a = true)
    (h : s.Step cs a s') : Inv cs s' := by
  cases a with
  | newStack base => exact inv_newStack hI h
  | advance => exact inv_advance hI h
  | deliver k => exact inv_deliver hI h
  | load x => exact inv_load hI hC h
  | enter x depth => exact inv_enter hI h

theorem safe_of_onTime {a : BootAct} (hI : Inv cs s) (hC : s.onTime cs a = true) :
    s.Safe cs a := by
  intro s' h
  refine ⟨(inv_step hI hC h).ownStacks, ?_⟩
  rintro x depth rfl
  obtain ⟨i, hi, hix, esp, _, rfl⟩ := step_enter hI h
  exact ⟨i, hi, hix, ⟨esp, Function.update_self ..⟩, rfl⟩

/-- A processor that reads the top of another core's stack is not on its own. -/
theorem onTime_of_safe {a : BootAct} (hI : Inv cs s) (hS : s.Safe cs a) : s.onTime cs a = true := by
  cases a with
  | newStack base => rfl
  | advance => rfl
  | deliver k => rfl
  | enter x depth => rfl
  | load x =>
    by_cases hx : s.ap x = .trampoline
    · have hstep : s.Step cs (.load x)
          { s with ap := Function.update s.ap x (.entered s.smpStackTop) } := by
        unfold Step step
        simp only [hx, if_true]
      obtain ⟨hown, _⟩ := hS _ hstep
      obtain ⟨i, _, hix, base, _, he, ha⟩ :=
        hown.own x s.smpStackTop (by dsimp only; rw [Function.update_self]; rfl)
      have hpub := hI.published_of_ap (x := x) (by rw [hx]; exact fun h => by cases h)
      obtain ⟨j, hj⟩ := Option.ne_none_iff_exists'.1 hpub
      obtain ⟨_, _, b, hb, hb'⟩ := hI.published j hj
      obtain ⟨_, _, _, ha', _⟩ := hI.region j b hb
      have hbb : b = base := by omega
      subst hbb
      dsimp only at ha
      rw [ha'] at ha
      cases ha
      simp [onTime, hj, hix]
    · simp [onTime, hx]

end

end BootState

open BootState in
/-- **Own stacks.** For every number of cores and every order of the steps of all processors and of
the deliveries: every processor that reaches `warm_start_32` runs on the stack allocated for it,
finds its own core and sets its own flag only, and no two run on the same stack, if and only if
every read of `smp_stack_top` finds what was written for its reader. -/
theorem own_stacks_iff (cs : BootCores) (as : List BootAct) :
    Along (BootState.Step cs) (Safe cs) boot as ↔
      Along (BootState.Step cs) (fun s a => s.onTime cs a = true) boot as := by
  refine (Along.iff_of_invariant (I := Inv cs) (fun _ _ _ hI hC hs => inv_step hI hC hs)
    (fun _ a hI => ?_) (inv_boot cs)).symm
  exact ⟨fun hC => safe_of_onTime hI hC, fun hS => onTime_of_safe hI hS⟩

/-- Three cores, the first of them the boot processor. -/
def BootCores.three : BootCores where
  toCores := Cores.three
  bspApicId := 0
  bootStack := 0x100000
  bootStack_aligned := by decide
  bootStack_lt := by decide

open BootState in
/-- Core `1` does not answer in its three rounds. The boot processor goes on and writes the stack of
core `2` to `smp_stack_top`; then the first STARTUP interrupt reaches core `1`, which comes up on
the stack of core `2`. -/
theorem late_core_on_next_stack :
    ¬ Along (BootState.Step .three) (Safe .three) boot
      [.advance, .advance, .newStack 0x200000, .advance,
        .advance, .advance, .advance, .advance, .advance, .advance, .advance, .advance, .advance,
        .newStack 0x201000, .advance, .deliver 1, .load 1] := by
  intro h
  have hrun : (List.foldlM (BootState.step .three) boot
      [.advance, .advance, .newStack 0x200000, .advance,
        .advance, .advance, .advance, .advance, .advance, .advance, .advance, .advance, .advance,
        .newStack 0x201000, .advance, .deliver 1]).any
      (fun s => decide (s.ap 1 = .trampoline ∧ s.smpStackTop = 0x202000 ∧
        s.anchorCore 0x201000 = some 2)) = true := by
    decide +kernel
  obtain ⟨s, hs, hp⟩ := (Option.any_eq_true _ _).1 hrun
  rw [decide_eq_true_eq] at hp
  obtain ⟨hap, htop, hanchor⟩ := hp
  have hsafe := Along.of_run (run_of_foldlM (fun _ _ _ => Iff.rfl) hs) h
  have hstep : s.Step .three (.load 1)
      { s with ap := Function.update s.ap 1 (.entered s.smpStackTop) } := by
    unfold BootState.Step BootState.step
    simp only [hap, if_true]
  obtain ⟨hown, _⟩ := hsafe _ hstep
  obtain ⟨i, _, hi, base, _, he, ha⟩ :=
    hown.own 1 s.smpStackTop (by dsimp only; rw [Function.update_self]; rfl)
  have hb : base = 0x201000 := by omega
  subst hb
  dsimp only at ha
  rw [hanchor] at ha
  cases ha
  exact absurd hi (by decide)

end Ospp
