import Ospp.Int.Idt
import Ospp.Lib.InService
import Ospp.Lib.Trans

/-!
# Interrupt dispatch

`idt::isr_handler` on any number of cores, with the tables of handlers they share. Each core has a
stack of running handlers: a handler may be interrupted before it returns, so what `isr_handler`
does is split at the call of the handler. An interrupt either was handed over by the core's local
APIC, which then has it in service until it is acknowledged, or it was not: an exception, a
software interrupt, or a spurious one. `isr_handler` acknowledges all of them alike, and it saves
the FPU state of the interrupted code in one place for each core.

* `interrupts_acknowledged`: the local APICs have in service what the cores are handling, in
  exactly the runs in which no handler of an interrupt that was not handed over ends while another
  is in service.
* `fpu_restored`: the interrupted code gets its own FPU state back, where a handler that has
  changed the state is not interrupted.
-/

namespace Ospp

open Trans

namespace Idt

/-- The texts for exceptions 0 to 18; `isr_handler` looks up every exception. -/
def exceptionMessages : List String :=
  ["Division by zero", "Debug", "Non-maskable interrupt", "Breakpoint", "Detected overflow",
    "Out of bounds", "Invalid opcode", "No coprocessor", "Double fault",
    "Coprocessor segment overrun", "Bad TSS", "Segment not present", "Stack fault",
    "General protection fault", "Page fault", "Unknown interrupt", "Coprocessor fault",
    "Alignment check", "Machine check"]

def irqMessages : List String :=
  ["PIT", "Keyboard", "Cascade", "COM2/COM4", "COM1/COM3", "LPT2", "Floppy", "LPT1", "RTC",
    "Not used", "Not used", "Not used", "Mouse", "Math coprocessor", "ATA1", "ATA2"]

end Idt

namespace Dispatch

variable {Φ : Type}

/-! ## States -/

/-- A handler that runs; `saved` is the FPU state of the code it interrupted. -/
structure Frame (Φ : Type) where
  no : ℕ
  /-- The local APIC handed the interrupt over. -/
  held : Bool
  saved : Φ

structure Core (Φ : Type) where
  /-- `current_anchor()->core` is not null. -/
  attached : Bool
  /-- `LAPIC::enable` was called. -/
  enabled : Bool
  /-- The in-service register of the local APIC. -/
  inService : Finset ℕ
  fpu : Φ
  /-- The handlers running on the core, innermost first. -/
  frames : List (Frame Φ)
  panicked : Bool

inductive Event where
  | isr (core no : ℕ) (handler : UInt32) (err : UInt32)
  | irq (core irq : ℕ) (handler : UInt32)
  | unhandledIsr (no : ℕ)
  | unhandledIrq (irq : ℕ) (message : Option String)
  /-- `message` is missing where the lookup reads beyond the table. -/
  | panic (no : ℕ) (message : Option String)
  | outb (port value : UInt8)
  | lapicEOI (core : ℕ)
  deriving DecidableEq, Repr

structure State (Φ : Type) where
  isrHandlers : ℕ → Option UInt32
  irqHandlers : ℕ → Option UInt32
  cores : ℕ → Core Φ
  /-- The `fxsave_region` of each core, and the one for code that runs before its core is known. -/
  fxsaveRegions : Option ℕ → Φ
  events : List Event

/-- The vectors of the interrupts being handled that the local APIC handed over. -/
def Core.handling (k : Core Φ) : List ℕ := (k.frames.filter (·.held)).map (·.no)

/-- The priority class of a vector. -/
def priorityClass (v : ℕ) : ℕ := v / 16

namespace State

def setCore (s : State Φ) (c : ℕ) (k : Core Φ) : State Φ :=
  { s with cores := Function.update s.cores c k }

def emit (s : State Φ) (e : Event) : State Φ := { s with events := s.events ++ [e] }

/-- Where `isr_handler` saves the FPU state on core `c`. -/
def regionOf (s : State Φ) (c : ℕ) : Option ℕ := if (s.cores c).attached then some c else none

/-! ## `isr_handler` -/

/-- The call in the middle of `isr_handler`, or what stands in its place. -/
def dispatch (s : State Φ) (c no : ℕ) (err : UInt32) : Event :=
  if 32 ≤ no ∧ no < 48 then
    match s.irqHandlers (no - 32) with
    | some handler => .irq c (no - 32) handler
    | none => .unhandledIrq (no - 32) Idt.irqMessages[no - 32]?
  else
    match s.isrHandlers no with
    | some handler => .isr c no handler err
    | none => if no < 32 then .panic no Idt.exceptionMessages[no]? else .unhandledIsr no

/-- `isr_handler` up to and including the start of the handler. -/
def enter (s : State Φ) (c no : ℕ) (err : UInt32) (held : Bool) : State Φ :=
  let k := s.cores c
  let e := s.dispatch c no err
  { s.setCore c
      { k with
        inService := if held then insert no k.inService else k.inService
        frames := ⟨no, held, k.fpu⟩ :: k.frames
        panicked := e matches .panic .. } with
    fxsaveRegions := Function.update s.fxsaveRegions (s.regionOf c) k.fpu
    events := s.events ++ [e] }

/-- `pic::EOI`. -/
def picEOI (s : State Φ) (irq : ℕ) : State Φ :=
  (if 8 ≤ irq then s.emit (.outb 0xA0 0x20) else s).emit (.outb 0x20 0x20)

/-- `LAPIC::EOI` on core `c`. -/
def lapicEOI (s : State Φ) (c : ℕ) : State Φ :=
  let k := s.cores c
  (s.setCore c { k with inService := InService.ack k.inService }).emit (.lapicEOI c)

/-- `isr_handler` from the return of the handler on. -/
def leave (s : State Φ) (c : ℕ) : Option (State Φ) :=
  let k := s.cores c
  match k.frames with
  | [] => none
  | f :: fs =>
    let s' := if 32 ≤ f.no ∧ f.no < 48 then s.picEOI (f.no - 32) else s
    let s' := s'.setCore c { k with frames := fs, fpu := s.fxsaveRegions (s.regionOf c) }
    some (if k.attached then s'.lapicEOI c else s')

end State

/-! ## Runs -/

inductive Act (Φ : Type) where
  | registerIsr (vector : UInt8) (handler : UInt32)
  | unregisterIsr (vector : UInt8)
  | registerIrq (irq : UInt8) (handler : UInt32)
  | unregisterIrq (irq : UInt8)
  /-- The stack's anchor is given its core; not from within a handler. -/
  | attach (c : ℕ)
  | enable (c : ℕ)
  /-- The code running on the core changes the FPU state. -/
  | compute (c : ℕ) (fpu : Φ)
  /-- The local APIC hands over one of the vectors that the kernel programs into it or its peers. -/
  | deliver (c v : ℕ)
  /-- An exception, a software interrupt or a spurious one; `code` is what the processor pushed. -/
  | raise (c v : ℕ) (code : UInt32)
  /-- The innermost handler returns. -/
  | leave (c : ℕ)

/-- Registering beyond the sixteen lines has no step: it writes outside the table. -/
def step (s : State Φ) : Act Φ → Option (State Φ)
  | .registerIsr v h =>
    some { s with isrHandlers := Function.update s.isrHandlers v.toNat (some h) }
  | .unregisterIsr v => some { s with isrHandlers := Function.update s.isrHandlers v.toNat none }
  | .registerIrq i h =>
    if i < 16 then some { s with irqHandlers := Function.update s.irqHandlers i.toNat (some h) }
    else none
  | .unregisterIrq i =>
    if i < 16 then some { s with irqHandlers := Function.update s.irqHandlers i.toNat none }
    else none
  | .attach c =>
    let k := s.cores c
    if k.frames.isEmpty then some (s.setCore c { k with attached := true }) else none
  | .enable c =>
    let k := s.cores c
    if k.attached then some (s.setCore c { k with enabled := true }) else none
  | .compute c fpu => some (s.setCore c { s.cores c with fpu := fpu })
  | .deliver c v =>
    let k := s.cores c
    if !k.panicked && k.enabled && 32 ≤ v && v < 256 &&
        InService.Accepts priorityClass k.inService v then
      some (s.enter c v 0 true)
    else none
  | .raise c v code =>
    if !(s.cores c).panicked && v < 256 then
      some (s.enter c v (if Idt.hasErrorCode v then code else 0) false)
    else none
  | .leave c => if (s.cores c).panicked then none else s.leave c

def Step (s : State Φ) (a : Act Φ) (s' : State Φ) : Prop := step s a = some s'

/-- Before the first interrupt; only the boot core's anchor does not name its core yet. -/
structure Init (bsp : ℕ) (s : State Φ) : Prop where
  frames : ∀ c, (s.cores c).frames = []
  inService : ∀ c, (s.cores c).inService = ∅
  enabled : ∀ c, (s.cores c).enabled = false
  attached : ∀ c, c ≠ bsp → (s.cores c).attached = true

/-! ## What a step does -/

/-- What a step does to the cores and to the saved FPU states. -/
inductive Effect (s s' : State Φ) : Act Φ → Prop
  | tables {a : Act Φ} (hcores : s'.cores = s.cores)
      (hregions : s'.fxsaveRegions = s.fxsaveRegions)
      (hdel : ∀ c v, a ≠ .deliver c v) (hraise : ∀ c v code, a ≠ .raise c v code)
      (hleave : ∀ c, a ≠ .leave c) : Effect s s' a
  | attach (c : ℕ) (hframes : (s.cores c).frames = [])
      (hcores : s'.cores = Function.update s.cores c { s.cores c with attached := true })
      (hregions : s'.fxsaveRegions = s.fxsaveRegions) : Effect s s' (.attach c)
  | enable (c : ℕ) (hattached : (s.cores c).attached = true)
      (hcores : s'.cores = Function.update s.cores c { s.cores c with enabled := true })
      (hregions : s'.fxsaveRegions = s.fxsaveRegions) : Effect s s' (.enable c)
  | compute (c : ℕ) (fpu : Φ)
      (hcores : s'.cores = Function.update s.cores c { s.cores c with fpu := fpu })
      (hregions : s'.fxsaveRegions = s.fxsaveRegions) : Effect s s' (.compute c fpu)
  | enter {a : Act Φ} (c v : ℕ) (held panicked : Bool)
      (hact : a = .deliver c v ∧ held = true ∨ (∃ code, a = .raise c v code) ∧ held = false)
      (hheld : held = true → (s.cores c).enabled = true ∧
        InService.Accepts priorityClass (s.cores c).inService v)
      (hcores : s'.cores = Function.update s.cores c
        { s.cores c with
          inService := if held then insert v (s.cores c).inService else (s.cores c).inService
          frames := ⟨v, held, (s.cores c).fpu⟩ :: (s.cores c).frames
          panicked := panicked })
      (hregions : s'.fxsaveRegions =
        Function.update s.fxsaveRegions (s.regionOf c) (s.cores c).fpu) : Effect s s' a
  | leave (c : ℕ) (f : Frame Φ) (fs : List (Frame Φ)) (hframes : (s.cores c).frames = f :: fs)
      (hcores : s'.cores = Function.update s.cores c
        { s.cores c with
          inService := if (s.cores c).attached then InService.ack (s.cores c).inService
            else (s.cores c).inService
          fpu := s.fxsaveRegions (s.regionOf c)
          frames := fs })
      (hregions : s'.fxsaveRegions = s.fxsaveRegions) : Effect s s' (.leave c)

variable {s s' : State Φ} {a : Act Φ} {as : List (Act Φ)} {c : ℕ}

namespace State

@[simp] theorem cores_picEOI (s : State Φ) (irq : ℕ) : (s.picEOI irq).cores = s.cores := by
  unfold picEOI; split <;> rfl

@[simp] theorem fxsaveRegions_picEOI (s : State Φ) (irq : ℕ) :
    (s.picEOI irq).fxsaveRegions = s.fxsaveRegions := by
  unfold picEOI; split <;> rfl

end State

theorem effect_leave {f : Frame Φ} {fs : List (Frame Φ)} (hf : (s.cores c).frames = f :: fs)
    (h : s.leave c = some s') : Effect s s' (.leave c) := by
  unfold State.leave at h
  dsimp only at h
  rw [hf] at h
  obtain ⟨t, ht⟩ : ∃ t, t = if 32 ≤ f.no ∧ f.no < 48 then s.picEOI (f.no - 32) else s := ⟨_, rfl⟩
  have hcores : t.cores = s.cores := by rw [ht]; split <;> simp
  have hregions : t.fxsaveRegions = s.fxsaveRegions := by rw [ht]; split <;> simp
  dsimp only at h
  rw [← ht] at h
  cases hk : (s.cores c).attached with
  | true =>
    rw [hk, if_pos rfl] at h
    cases h
    refine .leave c f fs hf ?_ hregions
    simp [State.lapicEOI, State.setCore, State.emit, hcores, hk]
  | false =>
    rw [hk, if_neg Bool.false_ne_true] at h
    cases h
    refine .leave c f fs hf ?_ hregions
    simp [State.setCore, hcores, hk]

theorem step_leave_iff : Step s (.leave c) s' ↔
    (s.cores c).panicked = false ∧ s.leave c = some s' := by
  show (if (s.cores c).panicked then none else s.leave c) = some s' ↔ _
  cases (s.cores c).panicked <;> simp

theorem step_effect (h : Step s a s') : Effect s s' a := by
  unfold Step step at h
  cases a with
  | registerIsr v handler => cases h; exact .tables rfl rfl nofun nofun nofun
  | unregisterIsr v => cases h; exact .tables rfl rfl nofun nofun nofun
  | registerIrq i handler =>
    dsimp only at h
    split at h
    · cases h; exact .tables rfl rfl nofun nofun nofun
    · cases h
  | unregisterIrq i =>
    dsimp only at h
    split at h
    · cases h; exact .tables rfl rfl nofun nofun nofun
    · cases h
  | attach c =>
    dsimp only at h
    split at h
    case isTrue hf => cases h; exact .attach c (List.isEmpty_iff.1 hf) rfl rfl
    case isFalse => cases h
  | enable c =>
    dsimp only at h
    split at h
    case isTrue hk => cases h; exact .enable c hk rfl rfl
    case isFalse => cases h
  | compute c fpu => cases h; exact .compute c fpu rfl rfl
  | deliver c v =>
    dsimp only at h
    split at h
    case isTrue hg =>
      simp only [Bool.and_eq_true, decide_eq_true_eq] at hg
      cases h
      exact .enter c v true _ (.inl ⟨rfl, rfl⟩) (fun _ => ⟨hg.1.1.1.2, hg.2⟩) rfl rfl
    case isFalse => cases h
  | raise c v code =>
    dsimp only at h
    split at h
    · cases h
      exact .enter c v false _ (.inr ⟨⟨code, rfl⟩, rfl⟩) nofun rfl rfl
    · cases h
  | leave c =>
    obtain ⟨_, h⟩ := step_leave_iff.1 h
    cases hf : (s.cores c).frames with
    | nil => simp [State.leave, hf] at h
    | cons f fs => exact effect_leave hf h

/-! ## Acknowledgments -/

/-- A handler of an interrupt that was not handed over ends with nothing in service. -/
def EndsAlone (s : State Φ) : Act Φ → Prop
  | .leave c => (s.cores c).panicked = false → ∀ f ∈ (s.cores c).frames.head?, f.held = false →
      (s.cores c).inService = ∅
  | _ => True

instance EndsAlone.decidable (s : State Φ) : ∀ a, Decidable (EndsAlone s a)
  | .leave c => inferInstanceAs (Decidable ((s.cores c).panicked = false →
      ∀ f ∈ (s.cores c).frames.head?, f.held = false → (s.cores c).inService = ∅))
  | .registerIsr .. | .unregisterIsr .. | .registerIrq .. | .unregisterIrq .. | .attach .. |
    .enable .. | .compute .. | .deliver .. | .raise .. => inferInstanceAs (Decidable True)

/-- After the step the local APICs have in service what the cores are handling. -/
def Acknowledges (s : State Φ) (a : Act Φ) : Prop :=
  ∀ s', Step s a s' → ∀ c, (s'.cores c).inService = (s'.cores c).handling.toFinset

structure Core.Sound (k : Core Φ) : Prop where
  serves : InService.Serves priorityClass k.handling k.inService
  enabled : k.enabled = true → k.attached = true
  attached : k.inService.Nonempty → k.attached = true

theorem Init.sound {bsp : ℕ} (h : Init bsp s) (c : ℕ) : (s.cores c).Sound := by
  refine ⟨?_, fun he => ?_, fun hs => ?_⟩
  · unfold Core.handling
    rw [h.frames, h.inService]
    exact .nil
  · rw [h.enabled] at he
    cases he
  · rw [h.inService] at hs
    cases hs with
    | intro x hx => cases hx

theorem priorityClass_mono : Monotone priorityClass := fun _ _ h => Nat.div_le_div_right h

theorem sound_update {k : Core Φ} (h : ∀ c, (s.cores c).Sound)
    (hcores : s'.cores = Function.update s.cores c k) (hk : k.Sound) (c' : ℕ) :
    (s'.cores c').Sound := by
  rw [hcores]
  exact (Function.forall_update_iff s.cores fun _ k => k.Sound).2 ⟨hk, fun x _ => h x⟩ c'

theorem Core.Sound.leave {k k' : Core Φ} {f : Frame Φ} {fs : List (Frame Φ)} (h : k.Sound)
    (hf : k.frames = f :: fs) (halone : f.held = false → k.inService = ∅) (hfs : k'.frames = fs)
    (hs : k'.inService = if k.attached then InService.ack k.inService else k.inService)
    (he : k'.enabled = k.enabled) (ha : k'.attached = k.attached) : k'.Sound := by
  have hserves : InService.Serves priorityClass k'.handling k'.inService := by
    have hold := h.serves
    unfold Core.handling at hold ⊢
    rw [hf] at hold
    rw [hfs, hs]
    cases hheld : f.held with
    | true =>
      rw [List.filter_cons_of_pos hheld, List.map_cons] at hold
      have hatt : k.attached = true := h.attached (by
        rw [hold.eq, List.toFinset_cons]
        exact Finset.insert_nonempty _ _)
      rw [if_pos hatt]
      exact hold.ack priorityClass_mono
    | false =>
      rw [List.filter_cons_of_neg (by rw [hheld]; exact Bool.false_ne_true), halone hheld] at hold
      rw [halone hheld, InService.ack_empty, ite_self]
      exact hold
  refine ⟨hserves, fun h1 => ?_, fun hne => ?_⟩
  · rw [ha]
    exact h.enabled (he ▸ h1)
  · rw [ha]
    apply h.attached
    rw [hs] at hne
    split at hne
    · exact hne.mono (Finset.erase_subset _ _)
    · exact hne

/-- A step keeps the cores sound. -/
theorem sound_step (h : ∀ c, (s.cores c).Sound) (halone : EndsAlone s a) (hs : Step s a s')
    (c : ℕ) : (s'.cores c).Sound := by
  cases step_effect hs with
  | tables hcores _ _ _ _ => rw [hcores]; exact h c
  | attach c₁ _ hcores _ =>
    exact sound_update h hcores ⟨(h c₁).serves, fun _ => rfl, fun _ => rfl⟩ c
  | enable c₁ hk hcores _ =>
    exact sound_update h hcores ⟨(h c₁).serves, fun _ => hk, (h c₁).attached⟩ c
  | compute c₁ fpu hcores _ =>
    exact sound_update h hcores ⟨(h c₁).serves, (h c₁).enabled, (h c₁).attached⟩ c
  | enter c₁ v held panicked _ hheld hcores _ =>
    refine sound_update h hcores ?_ c
    cases held with
    | true =>
      obtain ⟨he, hacc⟩ := hheld rfl
      have hatt := (h c₁).enabled he
      exact ⟨(h c₁).serves.accept hacc, fun _ => hatt, fun _ => hatt⟩
    | false => exact ⟨(h c₁).serves, (h c₁).enabled, (h c₁).attached⟩
  | leave c₁ f fs hf hcores _ =>
    obtain ⟨hrun, _⟩ := step_leave_iff.1 hs
    refine sound_update h hcores ((h c₁).leave hf (fun hh => ?_) rfl rfl rfl rfl) c
    exact halone hrun f (by rw [hf]; rfl) hh

/-- Acknowledging at the end of a handler whose interrupt was not handed over ends the service of
another interrupt, if there is one. -/
theorem endsAlone_of_acknowledges (h : ∀ c, (s.cores c).Sound) (hack : Acknowledges s a) :
    EndsAlone s a := by
  cases a with
  | leave c =>
    intro hrun f hf hheld
    obtain ⟨fs, hfs⟩ : ∃ fs, (s.cores c).frames = f :: fs := by
      cases hk : (s.cores c).frames with
      | nil => rw [hk] at hf; cases hf
      | cons g gs => rw [hk] at hf; cases hf; exact ⟨gs, rfl⟩
    obtain ⟨s', hs'⟩ : ∃ s', s.leave c = some s' := by simp [State.leave, hfs]
    have hs := step_leave_iff.2 ⟨hrun, hs'⟩
    by_contra hne
    have hne := Finset.nonempty_iff_ne_empty.2 hne
    have hafter := hack s' hs c
    cases step_effect hs with
    | leave _ f' fs' hf' hcores _ =>
      rw [hfs] at hf'
      cases hf'
      rw [hcores, Function.update_self] at hafter
      dsimp only at hafter
      rw [if_pos ((h c).attached hne)] at hafter
      apply InService.ack_ne hne
      rw [hafter, (h c).serves.eq]
      unfold Core.handling
      rw [hfs, List.filter_cons_of_neg (by rw [hheld]; exact Bool.false_ne_true)]
    | enter _ _ _ _ hact _ _ _ => simp at hact
    | tables _ _ _ _ hleave => exact absurd rfl (hleave c)
  | _ => trivial

/-- What the local APIC of a core has in service, and what the core is handling. -/
structure Core.Acknowledged (k : Core Φ) : Prop where
  inService : k.inService = k.handling.toFinset
  /-- No handler is entered again from its own priority class. -/
  classes : (k.handling.map priorityClass).Nodup
  /-- Between interrupts everything is acknowledged. -/
  idle : k.frames = [] → k.inService = ∅

theorem Core.Sound.acknowledged {k : Core Φ} (h : k.Sound) : k.Acknowledged := by
  refine ⟨h.serves.eq, h.serves.nodup, fun hf => ?_⟩
  rw [h.serves.eq]
  unfold Core.handling
  rw [hf]
  rfl

/-- **Acknowledgments.** In exactly the runs in which a handler of an interrupt that was not handed
over ends with nothing in service, every step leaves each local APIC with those interrupts in
service that its core is handling; no handler is then entered twice, and a core that has left its
handlers owes no acknowledgment. -/
theorem interrupts_acknowledged {bsp : ℕ} (h0 : Init bsp s) :
    (Along Step Acknowledges s as ↔ Along Step EndsAlone s as) ∧
    ∀ s', Run Step s as s' → Along Step EndsAlone s as → ∀ c, (s'.cores c).Acknowledged := by
  have hstep : ∀ (s : State Φ) a s', (∀ c, (s.cores c).Sound) → EndsAlone s a → Step s a s' →
      ∀ c, (s'.cores c).Sound := fun s a s' h halone hs => sound_step h halone hs
  constructor
  · refine Along.iff_of_invariant (I := fun s => ∀ c, (s.cores c).Sound) ?_ ?_ h0.sound
    · intro s a s' h hack hs
      exact hstep s a s' h (endsAlone_of_acknowledges h hack) hs
    · intro s a h
      refine ⟨endsAlone_of_acknowledges h, fun halone s' hs c => ?_⟩
      exact (hstep s a s' h halone hs c).serves.eq
  · intro s' hrun halone c
    exact (hrun.invariant hstep halone h0.sound c).acknowledged

/-- Core 0 boots; the FPU states are numbers. -/
def sampleStart : State ℕ where
  isrHandlers _ := none
  irqHandlers _ := none
  cores c := ⟨c ≠ 0, false, ∅, 7, [], false⟩
  fxsaveRegions _ := 0
  events := []

/-- A breakpoint before the cores are up; then a shootdown interrupts the timer's handler. -/
def sampleRun : List (Act ℕ) :=
  [.registerIsr 3 0x3000, .raise 0 3 0, .leave 0, .attach 0, .enable 0, .enable 1,
    .registerIrq 0 0x1000, .registerIsr 49 0x2000, .deliver 0 32, .deliver 1 49, .deliver 0 49,
    .compute 0 9, .leave 0, .compute 0 8, .leave 0, .leave 1]

theorem sample_init : Init 0 sampleStart :=
  ⟨fun _ => rfl, fun _ => rfl, fun _ => rfl, fun _ h => decide_eq_true h⟩

theorem interrupts_acknowledged_sample : Along Step Acknowledges sampleStart sampleRun := by
  refine (interrupts_acknowledged sample_init).1.2 ?_
  refine Along.mono (fun s a h => of_decide_eq_true h) (along_of_check (f := step)
    (p := fun s a => decide (EndsAlone s a)) (fun _ _ _ => Iff.rfl) ?_)
  decide +kernel

/-- A breakpoint in the timer's handler: its end acknowledges the timer. -/
example : ((sampleRun.take 9 ++ [Act.raise 0 3 0, Act.leave 0]).foldlM step sampleStart).any
    (fun s : State ℕ => decide ((s.cores 0).handling = [32] ∧ (s.cores 0).inService = ∅)) =
      true := by decide +kernel

/-! ## The FPU state -/

/-- A handler that has changed the FPU state is not interrupted. -/
def Undisturbed (s : State Φ) : Act Φ → Prop
  | .deliver c _ | .raise c _ _ =>
    (s.cores c).frames ≠ [] → (s.cores c).fpu = s.fxsaveRegions (s.regionOf c)
  | _ => True

instance Undisturbed.decidable [DecidableEq Φ] (s : State Φ) : ∀ a, Decidable (Undisturbed s a)
  | .deliver c _ | .raise c _ _ => inferInstanceAs (Decidable (¬ (s.cores c).frames = [] →
      (s.cores c).fpu = s.fxsaveRegions (s.regionOf c)))
  | .registerIsr .. | .unregisterIsr .. | .registerIrq .. | .unregisterIrq .. | .attach .. |
    .enable .. | .compute .. | .leave .. => inferInstanceAs (Decidable True)

/-- The code that was interrupted gets its own FPU state back. -/
def Restores (s : State Φ) : Act Φ → Prop
  | .leave c => ∀ s', Step s (.leave c) s' → ∀ f ∈ (s.cores c).frames.head?,
      (s'.cores c).fpu = f.saved
  | _ => True

structure Saved (bsp : ℕ) (s : State Φ) : Prop where
  attached : ∀ c, c ≠ bsp → (s.cores c).attached = true
  saved : ∀ c, ∀ f ∈ (s.cores c).frames, f.saved = s.fxsaveRegions (s.regionOf c)

theorem regionOf_congr (h : (s'.cores c).attached = (s.cores c).attached) :
    s'.regionOf c = s.regionOf c := by
  unfold State.regionOf
  rw [h]

section

variable {bsp : ℕ}

theorem Init.saved (h : Init bsp s) : Saved bsp s :=
  ⟨h.attached, fun c f hf => by rw [h.frames] at hf; cases hf⟩

/-- No two cores save in one place. -/
theorem Saved.regionOf_ne (h : Saved bsp s) {c' : ℕ} (hne : c' ≠ c) :
    s.regionOf c' ≠ s.regionOf c := by
  unfold State.regionOf
  intro he
  split at he
  · split at he
    · exact hne (Option.some.inj he)
    · cases he
  case isFalse h1 =>
    split at he
    · cases he
    case isFalse h2 =>
      have hc' : c' = bsp := by_contra fun hb => h1 (h.attached c' hb)
      have hc : c = bsp := by_contra fun hb => h2 (h.attached c hb)
      exact hne (hc'.trans hc.symm)

/-- A step that changes one core, and not the place where it saves. -/
theorem Saved.update {k : Core Φ} (h : Saved bsp s)
    (hcores : s'.cores = Function.update s.cores c k)
    (hregions : ∀ c', c' ≠ c →
      s'.fxsaveRegions (s.regionOf c') = s.fxsaveRegions (s.regionOf c'))
    (hatt : k.attached = (s.cores c).attached)
    (hk : ∀ f ∈ k.frames, f.saved = s'.fxsaveRegions (s.regionOf c)) : Saved bsp s' := by
  have hattached : ∀ c', (s'.cores c').attached = (s.cores c').attached := by
    intro c'
    rw [hcores]
    by_cases hc : c' = c
    · rw [hc, Function.update_self, hatt]
    · rw [Function.update_of_ne hc]
  refine ⟨fun c' hc => ?_, fun c' f hf => ?_⟩
  · rw [hattached]
    exact h.attached c' hc
  · rw [regionOf_congr (hattached c')]
    rw [hcores] at hf
    by_cases hc : c' = c
    · rw [hc, Function.update_self] at hf
      rw [hc]
      exact hk f hf
    · rw [Function.update_of_ne hc] at hf
      rw [hregions c' hc]
      exact h.saved c' f hf

theorem saved_step (h : Saved bsp s) (hu : Undisturbed s a) (hs : Step s a s') : Saved bsp s' := by
  cases step_effect hs with
  | tables hcores hregions _ _ _ =>
    refine ⟨fun c hc => ?_, fun c f hf => ?_⟩
    · rw [hcores]
      exact h.attached c hc
    · have hregion : s'.regionOf c = s.regionOf c := regionOf_congr (by rw [hcores])
      rw [hregion, hregions]
      rw [hcores] at hf
      exact h.saved c f hf
  | attach c₁ hframes hcores hregions =>
    refine ⟨fun c hc => ?_, fun c f hf => ?_⟩
    · rw [hcores]
      by_cases he : c = c₁
      · rw [he, Function.update_self]
      · rw [Function.update_of_ne he]
        exact h.attached c hc
    · by_cases he : c = c₁
      · rw [hcores, he, Function.update_self] at hf
        dsimp only at hf
        rw [hframes] at hf
        cases hf
      · have hcore : s'.cores c = s.cores c := by rw [hcores, Function.update_of_ne he]
        have hregion : s'.regionOf c = s.regionOf c := regionOf_congr (by rw [hcore])
        rw [hcore] at hf
        rw [hregion, hregions]
        exact h.saved c f hf
  | enable c₁ _ hcores hregions =>
    refine h.update hcores (fun _ _ => by rw [hregions]) rfl fun f hf => ?_
    rw [hregions]
    exact h.saved c₁ f hf
  | compute c₁ fpu hcores hregions =>
    refine h.update hcores (fun _ _ => by rw [hregions]) rfl fun f hf => ?_
    rw [hregions]
    exact h.saved c₁ f hf
  | enter c₁ v held panicked hact _ hcores hregions =>
    have hsame : (s.cores c₁).frames ≠ [] →
        (s.cores c₁).fpu = s.fxsaveRegions (s.regionOf c₁) := by
      obtain ⟨rfl, _⟩ | ⟨⟨code, rfl⟩, _⟩ := hact
      · exact hu
      · exact hu
    refine h.update hcores (fun c' hc => ?_) rfl fun f hf => ?_
    · rw [hregions, Function.update_of_ne (h.regionOf_ne hc)]
    · rw [hregions, Function.update_self]
      cases hf with
      | head _ => rfl
      | tail _ hf =>
        rw [hsame (List.ne_nil_of_mem hf)]
        exact h.saved c₁ f hf
  | leave c₁ f₁ fs hframes hcores hregions =>
    refine h.update hcores (fun _ _ => by rw [hregions]) rfl fun f hf => ?_
    rw [hregions]
    exact h.saved c₁ f (by rw [hframes]; exact List.mem_cons_of_mem _ hf)

theorem Saved.restores (h : Saved bsp s) : Restores s a := by
  cases a with
  | leave c =>
    intro s' hs f hf
    cases step_effect hs with
    | leave _ f' fs hframes hcores _ =>
      rw [hframes] at hf
      cases hf
      rw [hcores, Function.update_self]
      exact (h.saved c f (by rw [hframes]; exact List.mem_cons_self)).symm
    | enter _ _ _ _ hact _ _ _ => simp at hact
    | tables _ _ _ _ hleave => exact absurd rfl (hleave c)
  | _ => trivial

/-- **The FPU state.** The cores save in different places, and where no handler that has changed the
state is interrupted, every handler gives the code it interrupted its state back, at any depth. -/
theorem fpu_restored (h0 : Init bsp s) (hu : Along Step Undisturbed s as) :
    Along Step Restores s as := by
  refine Along.of_invariant (I := Saved bsp) ?_ ?_ h0.saved hu
  · intro s a s' h hu hs
    exact saved_step h hu hs
  · intro s a h _
    exact h.restores

end

theorem fpu_restored_sample : Along Step Restores sampleStart sampleRun := by
  refine fpu_restored sample_init ?_
  refine Along.mono (fun s a h => of_decide_eq_true h) (along_of_check (f := step)
    (p := fun s a => decide (Undisturbed s a)) (fun _ _ _ => Iff.rfl) ?_)
  decide +kernel

end Dispatch

end Ospp
