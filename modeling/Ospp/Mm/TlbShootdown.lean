import Mathlib.Tactic
import Ospp.Lib.Trans
import Ospp.Lib.Word

/-!
# The TLB shootdown protocol

`vmm::flush_remote_tlbs` on one core (the page-table lock is held, so there is one at a time) and
`vmm::tlb_shootdown_handler` on the others, step by step. A step of the flushing core is one
iteration of one of its two loops, the store of the count between them, or one look at the counter
in the final wait. Interrupts are messages: they are in flight from the write to the interrupt
command register to the run of the handler, and are delivered in any order. A core that comes up
sets its flag at any moment.

The two loops read every flag once each. `shootdown_complete` is the protocol's guarantee for the
runs in which both reads of a flag agree; `stale_core_after_shootdown` is a run in which a core
comes up between them.
-/

namespace Ospp

open Trans

/-- The cores in the table of the `CoreManager`. -/
structure Cores where
  count : ℕ
  apicId : ℕ → UInt8
  /-- `create_core` panics beyond `MAX_CORES`. -/
  count_le : count ≤ 255

/-- Where the flushing core is; `cur` is its index, `i` the core its loop looks at next. -/
inductive FlushPhase where
  | idle
  | counting (cur i pending : ℕ)
  | sending (cur i : ℕ)
  | waiting (cur : ℕ)
  deriving DecidableEq, Repr

structure TlbState where
  phase : FlushPhase
  /-- `tlb_shootdown_pending`. -/
  pending : ℕ
  /-- The local APICs with a shootdown interrupt on its way. -/
  inflight : List UInt8
  /-- The manager exists and the boot core's anchor names its core. -/
  ready : Bool
  initialized : ℕ → Bool
  /-- The flags when the flush started. -/
  initAtStart : ℕ → Bool
  /-- The flags as the counting loop read them. -/
  seen : ℕ → Bool
  /-- The processors that reloaded `CR3` since the flush started. -/
  reloaded : UInt8 → Bool

/-- What can happen next. -/
inductive TlbAct where
  /-- The manager is constructed and `init_bsp` sets the anchor. -/
  | bringUp
  /-- A core sets its `initialized` flag. -/
  | comeUp (c : ℕ)
  /-- A core has changed the page tables and calls `flush_remote_tlbs`. -/
  | start (cur : ℕ)
  /-- The flushing core takes its next step. -/
  | advance
  /-- The interrupt in place `k` is delivered: the handler reloads `CR3` and counts down. -/
  | deliver (k : ℕ)
  deriving DecidableEq, Repr

namespace TlbState

/-- Before any core is up. -/
def boot : TlbState :=
  ⟨.idle, 0, [], false, fun _ => false, fun _ => false, fun _ => false, fun _ => false⟩

/-- The core is not the flushing one. -/
def other (cs : Cores) (cur c : ℕ) : Bool := cs.apicId c != cs.apicId cur

/-- One step of `flush_remote_tlbs` past its first checks. -/
def advance (cs : Cores) (s : TlbState) : Option TlbState :=
  match s.phase with
  | .idle => none
  | .counting cur i pending =>
    if i < cs.count then
      let hit := other cs cur i && s.initialized i
      some { s with
        phase := .counting cur (i + 1) (if hit then Word32.add pending 1 else pending)
        seen := fun c => if c = i then s.initialized i else s.seen c }
    else if pending = 0 then some { s with phase := .idle }
    else some { s with phase := .sending cur 0, pending := pending }
  | .sending cur i =>
    if i < cs.count then
      let hit := other cs cur i && s.initialized i
      some { s with
        phase := .sending cur (i + 1)
        inflight := if hit then s.inflight ++ [cs.apicId i] else s.inflight }
    else some { s with phase := .waiting cur }
  | .waiting _ => if s.pending = 0 then some { s with phase := .idle } else some s

def step (cs : Cores) (s : TlbState) : TlbAct → Option TlbState
  | .bringUp => some { s with ready := true }
  | .comeUp c =>
    if s.ready && decide (c < cs.count) then
      some { s with initialized := fun d => if d = c then true else s.initialized d }
    else none
  | .start cur =>
    if s.phase = .idle ∧ cur < cs.count then
      some { s with
        -- without a manager or a current core there is nothing to flush
        phase := if s.ready then .counting cur 0 0 else .idle
        initAtStart := s.initialized, reloaded := fun _ => false }
    else none
  | .advance => s.advance cs
  | .deliver k =>
    match s.inflight[k]? with
    | none => none
    | some id =>
      some { s with
        inflight := s.inflight.eraseIdx k
        pending := Word32.sub s.pending 1
        reloaded := fun x => if x = id then true else s.reloaded x }

def Step (cs : Cores) (s : TlbState) (a : TlbAct) (s' : TlbState) : Prop := s.step cs a = some s'

/-- The flush by core `cur` has reached every other core that was up when it started, and none of
its interrupts is left. -/
def Complete (cs : Cores) (s : TlbState) (cur : ℕ) : Prop :=
  s.inflight = [] ∧ ∀ c < cs.count, other cs cur c = true → s.initAtStart c = true →
    s.reloaded (cs.apicId c) = true

/-- The core in `flush_remote_tlbs`. -/
def flusher (s : TlbState) : Option ℕ :=
  match s.phase with
  | .idle => none
  | .counting cur _ _ => some cur
  | .sending cur _ => some cur
  | .waiting cur => some cur

/-- The guarantee: the counter does not wrap, and a flush that returns is complete. -/
def Safe (cs : Cores) (s : TlbState) : TlbAct → Prop
  | .deliver k => k < s.inflight.length → s.pending ≠ 0
  | .start cur => ∀ s', s.Step cs (.start cur) s' → s'.phase = .idle → s'.Complete cs cur
  | .advance => ∀ s' cur, s.Step cs .advance s' → s.flusher = some cur → s'.phase = .idle →
      s'.Complete cs cur
  | _ => True

/-- When the sending loop reads a flag it finds what the counting loop read. -/
def flagsAgree (cs : Cores) (s : TlbState) : TlbAct → Bool
  | .advance =>
    match s.phase with
    | .sending cur i =>
      !(decide (i < cs.count) && other cs cur i) || s.initialized i == s.seen i
    | _ => true
  | _ => true

/-! ## The invariant -/

/-- The cores below `i` that the counting loop has counted. -/
def counted (cs : Cores) (s : TlbState) (cur i : ℕ) : ℕ :=
  (List.range i).countP fun c => other cs cur c && s.seen c

/-- The cores below `i` that were up at the start were up when the counting loop looked. -/
def StartSeen (s : TlbState) (i : ℕ) : Prop := ∀ c < i, s.initAtStart c = true → s.seen c = true

/-- The cores below `i` that were counted have reloaded, or have an interrupt on its way. -/
def Reached (cs : Cores) (s : TlbState) (cur i : ℕ) : Prop :=
  ∀ c < i, other cs cur c = true → s.seen c = true →
    s.reloaded (cs.apicId c) = true ∨ cs.apicId c ∈ s.inflight

/-- What holds in each phase of a flush. -/
def PhaseInv (cs : Cores) (s : TlbState) : Prop :=
  match s.phase with
  | .idle => s.inflight = [] ∧ s.pending = 0
  | .counting cur i pending => s.inflight = [] ∧ s.pending = 0 ∧ i ≤ cs.count ∧
      pending = s.counted cs cur i ∧ s.StartSeen i
  | .sending cur i => i ≤ cs.count ∧ s.StartSeen cs.count ∧ s.Reached cs cur i ∧
      s.pending + s.counted cs cur i = s.inflight.length + s.counted cs cur cs.count
  | .waiting cur => s.StartSeen cs.count ∧ s.Reached cs cur cs.count ∧
      s.pending = s.inflight.length

structure Inv (cs : Cores) (s : TlbState) : Prop where
  phase : s.PhaseInv cs
  started : s.phase ≠ .idle → ∀ c, s.initAtStart c = true → s.initialized c = true
  ready : s.phase ≠ .idle → s.ready = true
  unready : s.ready = false → ∀ c, s.initialized c = false
  pending_le : s.pending ≤ 255

theorem inv_boot (cs : Cores) : Inv cs boot :=
  ⟨⟨rfl, rfl⟩, fun h => absurd rfl h, fun h => absurd rfl h, fun _ _ => rfl, by decide⟩

theorem counted_le (cs : Cores) (s : TlbState) (cur i : ℕ) : s.counted cs cur i ≤ i := by
  have h := List.countP_le_length (p := fun c => other cs cur c && s.seen c) (l := List.range i)
  rwa [List.length_range] at h

theorem counted_succ (cs : Cores) (s : TlbState) (cur i : ℕ) :
    s.counted cs cur (i + 1) =
      s.counted cs cur i + if other cs cur i && s.seen i then 1 else 0 := by
  unfold counted
  rw [List.range_succ, List.countP_append, List.countP_singleton]

theorem counted_mono (cs : Cores) (s : TlbState) (cur : ℕ) {i j : ℕ} (h : i ≤ j) :
    s.counted cs cur i ≤ s.counted cs cur j := by
  induction j, h using Nat.le_induction with
  | base => exact le_refl _
  | succ j _ ih => rw [counted_succ]; omega

theorem counted_congr {cs : Cores} {s s' : TlbState} {cur i : ℕ}
    (h : ∀ c < i, s'.seen c = s.seen c) : s'.counted cs cur i = s.counted cs cur i := by
  unfold counted
  apply List.countP_congr
  intro c hc
  rw [h c (List.mem_range.1 hc)]

/-! ## One step -/

section

variable {cs : Cores} {s s' : TlbState}

theorem inv_counting {cur i pending : ℕ} (hI : Inv cs s) (hp : s.phase = .counting cur i pending)
    (h : s.advance cs = some s') : Inv cs s' := by
  have hph := hI.phase
  unfold PhaseInv at hph
  unfold advance at h
  rw [hp] at hph h
  obtain ⟨hin, hpend, hi, hcount, hseen⟩ := hph
  have hne : s.phase ≠ .idle := by rw [hp]; exact fun h => by cases h
  have hle := counted_le cs s cur i
  have hcs := cs.count_le
  simp only at h
  by_cases hlt : i < cs.count
  · rw [if_pos hlt] at h
    cases h
    refine ⟨⟨hin, hpend, hlt, ?_, ?_⟩, fun _ => hI.started hne, fun _ => hI.ready hne, hI.unready,
      hI.pending_le⟩
    · rw [counted_succ, counted_congr (s := s) fun c hc => by simp [Nat.ne_of_lt hc], ← hcount]
      simp only [if_true]
      split_ifs
      · exact Word32.add_eq (by omega)
      · rfl
    · intro c hc hs
      show (if c = i then s.initialized i else s.seen c) = true
      split_ifs with hci
      · exact hci ▸ hI.started hne c hs
      · exact hseen c (by omega) hs
  · have hieq : i = cs.count := by omega
    subst hieq
    rw [if_neg hlt] at h
    by_cases hzero : pending = 0
    · rw [if_pos hzero] at h
      cases h
      exact ⟨⟨hin, hpend⟩, fun h => absurd rfl h, fun h => absurd rfl h, hI.unready, hI.pending_le⟩
    · rw [if_neg hzero] at h
      cases h
      refine ⟨⟨Nat.zero_le _, hseen, fun c hc => absurd hc (Nat.not_lt_zero c), ?_⟩,
        fun _ => hI.started hne, fun _ => hI.ready hne, hI.unready, by show pending ≤ 255; omega⟩
      show pending + 0 = s.inflight.length + s.counted cs cur cs.count
      rw [hin, ← hcount, List.length_nil]
      omega

theorem inv_sending {cur i : ℕ} (hI : Inv cs s) (hp : s.phase = .sending cur i)
    (hagree : s.flagsAgree cs .advance = true) (h : s.advance cs = some s') : Inv cs s' := by
  have hph := hI.phase
  unfold PhaseInv at hph
  unfold advance at h
  rw [hp] at hph h
  obtain ⟨hi, hseen, hreach, hcount⟩ := hph
  have hne : s.phase ≠ .idle := by rw [hp]; exact fun h => by cases h
  simp only at h
  by_cases hlt : i < cs.count
  · rw [if_pos hlt] at h
    cases h
    -- the flag read now is the one that was counted
    have hhit : (other cs cur i && s.initialized i) = (other cs cur i && s.seen i) := by
      cases ho : other cs cur i with
      | false => rfl
      | true =>
        have heq : s.initialized i = s.seen i := by simpa [flagsAgree, hp, hlt, ho] using hagree
        rw [heq]
    refine ⟨⟨hlt, hseen, ?_, ?_⟩, fun _ => hI.started hne, fun _ => hI.ready hne, hI.unready,
      hI.pending_le⟩
    · intro c hc ho hs
      show _ ∨ cs.apicId c ∈ (if _ then _ else _)
      by_cases hci : c = i
      · subst hci
        right
        rw [hhit, ho, show s.seen c = true from hs]
        simp
      · rcases hreach c (by omega) ho hs with hr | hm
        · exact Or.inl hr
        · right
          split_ifs
          · exact List.mem_append_left _ hm
          · exact hm
    · show s.pending + s.counted cs cur (i + 1) =
        (if _ then _ else _ : List UInt8).length + s.counted cs cur cs.count
      rw [counted_succ, hhit]
      split_ifs
      · rw [List.length_append, List.length_singleton]; omega
      · omega
  · have hieq : i = cs.count := by omega
    subst hieq
    rw [if_neg hlt] at h
    cases h
    refine ⟨⟨hseen, hreach, ?_⟩, fun _ => hI.started hne, fun _ => hI.ready hne, hI.unready,
      hI.pending_le⟩
    show s.pending = s.inflight.length
    omega

theorem inv_waiting {cur : ℕ} (hI : Inv cs s) (hp : s.phase = .waiting cur)
    (h : s.advance cs = some s') : Inv cs s' := by
  have hph := hI.phase
  unfold PhaseInv at hph
  unfold advance at h
  rw [hp] at hph h
  obtain ⟨_, _, hpend⟩ := hph
  simp only at h
  by_cases hzero : s.pending = 0
  · rw [if_pos hzero] at h
    cases h
    have hnil : s.inflight = [] := List.length_eq_zero_iff.1 (by omega)
    exact ⟨⟨hnil, hzero⟩, fun h => absurd rfl h, fun h => absurd rfl h, hI.unready, hI.pending_le⟩
  · rw [if_neg hzero] at h
    cases h
    exact hI

/-- A delivered interrupt was counted. -/
theorem pending_pos_of_inflight (hI : Inv cs s) (hin : s.inflight ≠ []) : 0 < s.pending := by
  have hlen : 0 < s.inflight.length := List.length_pos_iff.2 hin
  have hph := hI.phase
  unfold PhaseInv at hph
  cases hp : s.phase with
  | idle => rw [hp] at hph; exact absurd hph.1 hin
  | counting cur i p => rw [hp] at hph; exact absurd hph.1 hin
  | sending cur i =>
    rw [hp] at hph
    obtain ⟨hi, _, _, hcount⟩ := hph
    have := counted_mono cs s cur hi
    omega
  | waiting cur =>
    rw [hp] at hph
    obtain ⟨_, _, hpend⟩ := hph
    omega

/-- The delivered core has reloaded; every other interrupt is still on its way. -/
theorem reached_deliver {cur i k : ℕ} {id : UInt8} {x y : TlbState}
    (hk : x.inflight[k]? = some id) (hseen : y.seen = x.seen)
    (hin : y.inflight = x.inflight.eraseIdx k)
    (hrel : y.reloaded = fun a => if a = id then true else x.reloaded a)
    (h : x.Reached cs cur i) : y.Reached cs cur i := by
  intro c hc ho hs
  rw [hrel, hin]
  rw [hseen] at hs
  by_cases hid : cs.apicId c = id
  · left; simp [hid]
  · rcases h c hc ho hs with hr | hm
    · left; simp [hr]
    · right
      obtain ⟨j, hj, hjc⟩ := List.getElem_of_mem hm
      have hjk : j ≠ k := by
        rintro rfl
        rw [List.getElem?_eq_getElem hj, hjc] at hk
        exact hid (Option.some.inj hk)
      exact List.mem_eraseIdx_iff_getElem.2 ⟨j, hj, hjk, hjc⟩

theorem inv_deliver {k : ℕ} (hI : Inv cs s) (h : s.step cs (.deliver k) = some s') : Inv cs s' := by
  unfold step at h
  simp only at h
  cases hk : s.inflight[k]? with
  | none => rw [hk] at h; cases h
  | some id =>
    rw [hk] at h
    simp only [Option.some.injEq] at h
    have hlt : k < s.inflight.length := (List.getElem?_eq_some_iff.1 hk).1
    have hpos := pending_pos_of_inflight hI (List.ne_nil_of_length_pos (by omega))
    have hle := hI.pending_le
    have hpend : Word32.sub s.pending 1 = s.pending - 1 := Word32.sub_eq (by omega) (by omega)
    have hlen := List.length_eraseIdx_of_lt hlt
    rw [hpend] at h
    have hph := hI.phase
    unfold PhaseInv at hph
    cases hp : s.phase with
    | idle => rw [hp] at hph; rw [hph.1] at hk; cases hk
    | counting cur i p => rw [hp] at hph; rw [hph.1] at hk; cases hk
    | sending cur i =>
      rw [hp] at hph
      obtain ⟨hi, hseen, hreach, hcount⟩ := hph
      have hne : s.phase ≠ .idle := by rw [hp]; exact fun h => by cases h
      subst h
      refine ⟨?_, fun _ => hI.started hne, fun _ => hI.ready hne, hI.unready, ?_⟩
      · unfold PhaseInv
        simp only [hp]
        refine ⟨hi, hseen, reached_deliver hk rfl rfl rfl hreach, ?_⟩
        show s.pending - 1 + s.counted cs cur i = (s.inflight.eraseIdx k).length + s.counted cs cur _
        omega
      · show s.pending - 1 ≤ 255
        omega
    | waiting cur =>
      rw [hp] at hph
      obtain ⟨hseen, hreach, hcount⟩ := hph
      have hne : s.phase ≠ .idle := by rw [hp]; exact fun h => by cases h
      subst h
      refine ⟨?_, fun _ => hI.started hne, fun _ => hI.ready hne, hI.unready, ?_⟩
      · unfold PhaseInv
        simp only [hp]
        refine ⟨hseen, reached_deliver hk rfl rfl rfl hreach, ?_⟩
        show s.pending - 1 = (s.inflight.eraseIdx k).length
        omega
      · show s.pending - 1 ≤ 255
        omega

/-- A phase does not depend on the flags. -/
theorem inv_comeUp {c : ℕ} (hI : Inv cs s) (h : s.step cs (.comeUp c) = some s') :
    Inv cs s' := by
  unfold step at h
  simp only at h
  split_ifs at h with hc
  cases h
  simp only [Bool.and_eq_true] at hc
  refine ⟨hI.phase, fun hne d hd => ?_, hI.ready, fun hr => ?_, hI.pending_le⟩
  · show (if d = c then true else s.initialized d) = true
    split_ifs
    · rfl
    · exact hI.started hne d hd
  · rw [show s.ready = false from hr] at hc
    exact absurd hc.1 (by decide)

theorem inv_start {cur : ℕ} (hI : Inv cs s) (h : s.step cs (.start cur) = some s') :
    Inv cs s' := by
  unfold step at h
  simp only at h
  split_ifs at h with hc hr
  · cases h
    have hph := hI.phase
    unfold PhaseInv at hph
    rw [hc.1] at hph
    exact ⟨⟨hph.1, hph.2, Nat.zero_le _, rfl, fun c hc => absurd hc (Nat.not_lt_zero c)⟩,
      fun _ c h => h, fun _ => hr, hI.unready, hI.pending_le⟩
  · cases h
    have hph := hI.phase
    unfold PhaseInv at hph
    rw [hc.1] at hph
    exact ⟨hph, fun h => absurd rfl h, fun h => absurd rfl h, hI.unready, hI.pending_le⟩

theorem inv_advance (hI : Inv cs s) (hagree : s.flagsAgree cs .advance = true)
    (h : s.advance cs = some s') : Inv cs s' := by
  cases hp : s.phase with
  | idle => unfold advance at h; rw [hp] at h; cases h
  | counting cur i p => exact inv_counting hI hp h
  | sending cur i => exact inv_sending hI hp hagree h
  | waiting cur => exact inv_waiting hI hp h

/-- **One step.** Where the two reads of a flag agree, every step keeps the invariant. -/
theorem inv_step {a : TlbAct} (hI : Inv cs s) (hagree : s.flagsAgree cs a = true)
    (h : s.Step cs a s') : Inv cs s' := by
  cases a with
  | bringUp =>
    cases h
    exact ⟨hI.phase, hI.started, fun _ => rfl, fun h => (by cases h), hI.pending_le⟩
  | comeUp c => exact inv_comeUp hI h
  | start cur => exact inv_start hI h
  | advance => exact inv_advance hI hagree h
  | deliver k => exact inv_deliver hI h

/-- A flush that returns from its wait has been acknowledged by every core it counted. -/
theorem complete_of_advance (hI : Inv cs s) {cur : ℕ} (h : s.advance cs = some s')
    (hcur : s.flusher = some cur) (hidle : s'.phase = .idle) : s'.Complete cs cur := by
  have hph := hI.phase
  unfold PhaseInv at hph
  unfold advance at h
  unfold flusher at hcur
  cases hp : s.phase with
  | idle => rw [hp] at h; cases h
  | counting d i p =>
    rw [hp] at h hph hcur
    cases hcur
    obtain ⟨hin, _, hi, hcount, hseen⟩ := hph
    by_cases hlt : i < cs.count
    · simp only [if_pos hlt] at h
      cases h
      cases hidle
    · have hieq : i = cs.count := by omega
      subst hieq
      by_cases hzero : p = 0
      · simp only [if_neg hlt, if_pos hzero] at h
        cases h
        -- nothing was counted, so no other core was up at the start
        refine ⟨hin, fun c hc ho hs => ?_⟩
        have hnone : (List.range cs.count).countP (fun c => other cs cur c && s.seen c) = 0 := by
          rw [← hzero, hcount]
          rfl
        have := List.countP_eq_zero.1 hnone c (List.mem_range.2 hc)
        rw [ho, hseen c hc hs] at this
        exact absurd rfl this
      · simp only [if_neg hlt, if_neg hzero] at h
        cases h
        cases hidle
  | sending d i =>
    rw [hp] at h
    simp only at h
    split_ifs at h <;> cases h <;> cases hidle
  | waiting d =>
    rw [hp] at h hph hcur
    cases hcur
    obtain ⟨hseen, hreach, hpend⟩ := hph
    by_cases hzero : s.pending = 0
    · simp only [if_pos hzero] at h
      cases h
      have hnil : s.inflight = [] := List.length_eq_zero_iff.1 (by omega)
      refine ⟨hnil, fun c hc ho hs => ?_⟩
      rcases hreach c hc ho (hseen c hc hs) with hr | hm
      · exact hr
      · rw [hnil] at hm; cases hm
    · simp only [if_neg hzero] at h
      cases h
      rw [hp] at hidle
      cases hidle

theorem complete_of_start (hI : Inv cs s) {cur : ℕ} (h : s.step cs (.start cur) = some s')
    (hidle : s'.phase = .idle) : s'.Complete cs cur := by
  unfold step at h
  simp only at h
  split_ifs at h with hc hr
  · cases h; cases hidle
  · cases h
    have hph := hI.phase
    unfold PhaseInv at hph
    rw [hc.1] at hph
    refine ⟨hph.1, fun c _ _ hs => ?_⟩
    have := hI.unready (by simpa using hr) c
    rw [show s.initialized c = true from hs] at this
    cases this

theorem safe_of_inv (hI : Inv cs s) (a : TlbAct) : s.Safe cs a := by
  cases a with
  | deliver k =>
    intro hk
    have := pending_pos_of_inflight hI (List.ne_nil_of_length_pos (by omega))
    omega
  | start cur => exact fun s' h hidle => complete_of_start hI h hidle
  | advance => exact fun s' cur h hcur hidle => complete_of_advance hI h hcur hidle
  | bringUp => trivial
  | comeUp c => trivial

end

end TlbState

open TlbState in
/-- **TLB shootdown.** In every interleaving in which the sending loop finds each flag as the
counting loop found it, the counter never wraps, and every flush that returns has made every other
core that was up at its start reload `CR3` and has left no interrupt undelivered. -/
theorem shootdown_complete (cs : Cores) (as : List TlbAct)
    (h : Along (TlbState.Step cs) (fun s a => s.flagsAgree cs a = true) boot as) :
    Along (TlbState.Step cs) (Safe cs) boot as :=
  Along.of_invariant (I := Inv cs) (fun _ _ _ hI hC hs => inv_step hI hC hs)
    (fun _ a hI _ => safe_of_inv hI a) (inv_boot cs) h

/-- Three cores. -/
def Cores.three : Cores := ⟨3, fun i => UInt8.ofNat i, by decide⟩

open TlbState in
/-- A whole shootdown by core `0` with core `1` up and core `2` down. -/
theorem shootdown_complete_two_cores :
    Along (TlbState.Step .three) (Safe .three) boot
      [.bringUp, .comeUp 0, .comeUp 1, .start 0, .advance, .advance, .advance, .advance, .advance,
        .advance, .advance, .advance, .deliver 0, .advance] := by
  refine shootdown_complete .three _ ?_
  exact along_of_check (f := TlbState.step .three) (fun _ _ _ => Iff.rfl) (by decide +kernel)

open TlbState in
/-- Core `2` comes up between the two loops of core `0`. Its acknowledgement takes the place of
that of core `1`: the flush returns before core `1` has reloaded `CR3`, and the acknowledgement of
core `1` then takes the counter below zero. -/
theorem stale_core_after_shootdown :
    ¬ Along (TlbState.Step .three) (Safe .three) boot
      [.bringUp, .comeUp 0, .comeUp 1, .start 0, .advance, .advance, .advance, .advance,
        .comeUp 2, .advance, .advance, .advance, .advance, .deliver 1, .advance, .deliver 0] := by
  intro h
  have hrun : (List.foldlM (TlbState.step .three) boot
      [.bringUp, .comeUp 0, .comeUp 1, .start 0, .advance, .advance, .advance, .advance,
        .comeUp 2, .advance, .advance, .advance, .advance, .deliver 1]).any
      (fun s => decide (s.phase = .waiting 0 ∧ s.pending = 0 ∧ s.inflight = [1])) = true := by
    decide +kernel
  obtain ⟨s, hs, hp⟩ := (Option.any_eq_true _ _).1 hrun
  rw [decide_eq_true_eq] at hp
  have hret := Along.of_run (run_of_foldlM (fun _ _ _ => Iff.rfl) hs) h
  have hstep : s.Step .three .advance { s with phase := .idle } := by
    unfold TlbState.Step TlbState.step TlbState.advance
    simp only [hp.1, hp.2.1, if_true]
  have hdone := hret _ 0 hstep (by rw [flusher, hp.1]) rfl
  rw [TlbState.Complete] at hdone
  rw [hp.2.2] at hdone
  cases hdone.1

end Ospp
