import Ospp.Driver.Pit

/-!
# Timer handlers

`pit::register_handler`, `unregister_handler` and `tick_handler` from `driver/pit.cpp`.

What a tick does to a slot depends on that slot and the time alone (`next`, `fires`), so the scan is
taken apart slot by slot (`scan_slot`). A handler of period `d` ticks is followed over a run through
`slotAfter`: its slot `k` ticks after the registration. It is due for the first time after `d`
ticks, unless `d` intervals are too long for the 64 bits of the time (`due_iff`), and then it waits
for a time that a multiple of the interval may never come to.
-/

namespace Ospp.Pit

/-! ## The operations -/

inductive InterruptFrameKind where
  | base
  | contextSwitch
  deriving DecidableEq, Repr

/-- The kind of the frame `get_isr_wrapper` gives a vector. -/
def isrFrameKind (n : ℕ) : InterruptFrameKind :=
  if n = 32 ∨ n = 48 then .contextSwitch else .base

def irqFrameKind (n : ℕ) : InterruptFrameKind := isrFrameKind (32 + n)

/-- A call of a callback from the scan. -/
structure Call where
  slot : Fin maxHandlers
  callback : UInt32
  arg : UInt32
  deriving DecidableEq, Repr

/-- `if (!handler.active)`, over the table. -/
def freeSlot (s : State) : Option (Fin maxHandlers) :=
  (List.finRange maxHandlers).find? fun i => !(s.handlers i).active

def matchingSlot (s : State) (callback arg : UInt32) : Option (Fin maxHandlers) :=
  (List.finRange maxHandlers).find? fun i =>
    (s.handlers i).active && (s.handlers i).callback == callback && (s.handlers i).arg == arg

def State.set (s : State) (i : Fin maxHandlers) (h : TimerHandler) : State :=
  { s with handlers := Function.update s.handlers i h }

def registerHandler (s : State) (callback arg : UInt32) (trigger : TimerTrigger)
    (interval : UInt64) : State × Bool :=
  if s.handlerCount ≥ 8 ∨ callback = 0 then (s, false)
  else
    match freeSlot s with
    | some i =>
      ({ s.set i
          { callback, arg, trigger
            intervalUs := if trigger = .everyTick then s.intervalUs.toUInt64 else interval
            lastTriggeredUs := s.tickCount * s.intervalUs.toUInt64
            active := true } with
          handlerCount := s.handlerCount + 1 }, true)
    | none => (s, false)

def unregisterHandler (s : State) (callback arg : UInt32) : State × Bool :=
  if callback = 0 then (s, false)
  else
    match matchingSlot s callback arg with
    | some i =>
      ({ s.set i { s.handlers i with active := false } with
          handlerCount := s.handlerCount - 1 }, true)
    | none => (s, false)

/-- `if (callback)` behind the lock. -/
def callOf (i : Fin maxHandlers) (h : TimerHandler) : List Call :=
  if h.callback ≠ 0 then [⟨i, h.callback, h.arg⟩] else []

/-- The body of the scan. -/
def scanSlot (now : UInt64) (s : State) (i : Fin maxHandlers) : State × List Call :=
  let handler := s.handlers i
  if !handler.active then (s, [])
  else
    match handler.trigger with
    | .everyTick => (s, callOf i handler)
    | .interval =>
      if now - handler.lastTriggeredUs ≥ handler.intervalUs then
        (s.set i { handler with lastTriggeredUs := now }, callOf i handler)
      else (s, [])
    | .oneShot =>
      if now - handler.lastTriggeredUs ≥ handler.intervalUs then
        ({ s.set i { handler with active := false } with handlerCount := s.handlerCount - 1 },
          callOf i handler)
      else (s, [])

def scan (now : UInt64) : List (Fin maxHandlers) → State → State × List Call
  | [], s => (s, [])
  | i :: is, s =>
    let (s', calls) := scanSlot now s i
    let (s'', more) := scan now is s'
    (s'', calls ++ more)

/-- `tick_handler`, with the callbacks it calls. -/
def tickHandler (s : State) : State × List Call :=
  let s := { s with tickCount := s.tickCount + 1 }
  if irqFrameKind 0 ≠ .contextSwitch then (s, [])
  else scan (s.tickCount * s.intervalUs.toUInt64) (List.finRange maxHandlers) s

inductive Op where
  | register (callback arg : UInt32) (trigger : TimerTrigger) (interval : UInt64)
  | unregister (callback arg : UInt32)
  | tick
  deriving DecidableEq, Repr

def step (s : State) : Op → State
  | .register callback arg trigger interval => (registerHandler s callback arg trigger interval).1
  | .unregister callback arg => (unregisterHandler s callback arg).1
  | .tick => (tickHandler s).1

/-- The state after some calls. -/
def after (s : State) (ops : List Op) : State := ops.foldl step s

/-! ## The scan, slot by slot -/

/-- The time the handler waits for has come. -/
def TimerHandler.Due (now : UInt64) (h : TimerHandler) : Prop :=
  match h.trigger with
  | .everyTick => True
  | _ => now - h.lastTriggeredUs ≥ h.intervalUs

instance (now : UInt64) (h : TimerHandler) : Decidable (h.Due now) := by
  unfold TimerHandler.Due
  split <;> infer_instance

/-- What the scan leaves in a slot. -/
def next (now : UInt64) (h : TimerHandler) : TimerHandler :=
  if h.active ∧ h.Due now then
    match h.trigger with
    | .everyTick => h
    | .interval => { h with lastTriggeredUs := now }
    | .oneShot => { h with active := false }
  else h

/-- The calls the scan makes for a slot. -/
def fires (now : UInt64) (i : Fin maxHandlers) (h : TimerHandler) : List Call :=
  if h.active ∧ h.Due now then callOf i h else []

/-- The slots in use. -/
def activeSlots (s : State) : Finset (Fin maxHandlers) :=
  Finset.univ.filter fun i => (s.handlers i).active

/-- `handler_count` is the number of slots in use. -/
def Counted (s : State) : Prop := s.handlerCount.toNat = (activeSlots s).card

theorem mem_activeSlots {s : State} {i : Fin maxHandlers} :
    i ∈ activeSlots s ↔ (s.handlers i).active = true := by
  simp [activeSlots]

theorem activeSlots_set_true (s : State) (i : Fin maxHandlers) {h : TimerHandler}
    (hh : h.active = true) : activeSlots (s.set i h) = insert i (activeSlots s) := by
  ext j
  rw [mem_activeSlots, Finset.mem_insert, mem_activeSlots]
  unfold State.set
  by_cases hj : j = i
  · subst hj
    simp [hh]
  · simp [hj]

theorem activeSlots_set_false (s : State) (i : Fin maxHandlers) {h : TimerHandler}
    (hh : h.active = false) : activeSlots (s.set i h) = (activeSlots s).erase i := by
  ext j
  rw [mem_activeSlots, Finset.mem_erase, mem_activeSlots]
  unfold State.set
  by_cases hj : j = i
  · subst hj
    simp [hh]
  · simp [hj]

theorem card_activeSlots_le (s : State) : (activeSlots s).card ≤ 8 := by
  have h := Finset.card_le_univ (activeSlots s)
  rwa [Fintype.card_fin] at h

/-- A slot taken. -/
theorem Counted.take {s : State} (hs : Counted s) {i : Fin maxHandlers}
    (hi : (s.handlers i).active = false) {h : TimerHandler} (hh : h.active = true) :
    Counted { s.set i h with handlerCount := s.handlerCount + 1 } := by
  have hnew : i ∉ activeSlots s := fun hmem => by simp [mem_activeSlots.1 hmem] at hi
  have hle := card_activeSlots_le s
  have hcard : (activeSlots (s.set i h)).card = (activeSlots s).card + 1 := by
    rw [activeSlots_set_true s i hh, Finset.card_insert_of_notMem hnew]
  unfold Counted at *
  change (s.handlerCount + 1).toNat = (activeSlots (s.set i h)).card
  rw [hcard, UInt32.toNat_add, hs]
  exact Nat.mod_eq_of_lt (by rw [show (1 : UInt32).toNat = 1 from rfl]; omega)

/-- A slot given back. -/
theorem Counted.giveBack {s : State} (hs : Counted s) {i : Fin maxHandlers}
    (hi : (s.handlers i).active = true) {h : TimerHandler} (hh : h.active = false) :
    Counted { s.set i h with handlerCount := s.handlerCount - 1 } := by
  have hmem : i ∈ activeSlots s := mem_activeSlots.2 hi
  have hpos : 0 < (activeSlots s).card := Finset.card_pos.2 ⟨i, hmem⟩
  have hcard : (activeSlots (s.set i h)).card = (activeSlots s).card - 1 := by
    rw [activeSlots_set_false s i hh, Finset.card_erase_of_mem hmem]
  unfold Counted at *
  change (s.handlerCount - 1).toNat = (activeSlots (s.set i h)).card
  rw [hcard, UInt32.toNat_sub_of_le _ _ (UInt32.le_iff_toNat_le.2 (by rw [hs]; exact hpos)), hs]
  rfl

/-- A slot that stays in use. -/
theorem Counted.keep {s : State} (hs : Counted s) {i : Fin maxHandlers}
    (hi : (s.handlers i).active = true) {h : TimerHandler} (hh : h.active = true) :
    Counted (s.set i h) := by
  unfold Counted at *
  change s.handlerCount.toNat = (activeSlots (s.set i h)).card
  rw [activeSlots_set_true s i hh, Finset.insert_eq_of_mem (mem_activeSlots.2 hi), hs]

/-- The body of the scan changes its slot and the count. -/
theorem scanSlot_spec (now : UInt64) (s : State) (i : Fin maxHandlers) :
    (scanSlot now s i).1.handlers = Function.update s.handlers i (next now (s.handlers i)) ∧
      (scanSlot now s i).1.tickCount = s.tickCount ∧
      (scanSlot now s i).1.intervalUs = s.intervalUs ∧
      (scanSlot now s i).2 = fires now i (s.handlers i) ∧
      (Counted s → Counted (scanSlot now s i).1) := by
  rcases hh : s.handlers i with ⟨callback, arg, trigger, interval, last, active⟩
  have hself : Function.update s.handlers i
      ⟨callback, arg, trigger, interval, last, active⟩ = s.handlers :=
    Function.update_eq_self_iff.2 hh.symm
  unfold scanSlot next fires TimerHandler.Due
  rw [hh]
  cases active with
  | false => simp [hself]
  | true =>
    have hact : (s.handlers i).active = true := by rw [hh]
    cases trigger with
    | everyTick => simp [hself]
    | interval =>
      by_cases hdue : now - last ≥ interval
      · simp only [hdue, State.set, Bool.not_true, Bool.false_eq_true, if_false, if_true,
          and_self, true_and]
        exact fun hs => hs.keep hact rfl
      · simp [hdue, hself]
    | oneShot =>
      by_cases hdue : now - last ≥ interval
      · simp only [hdue, State.set, Bool.not_true, Bool.false_eq_true, if_false, if_true,
          and_self, true_and]
        exact fun hs => hs.giveBack hact rfl
      · simp [hdue, hself]

/-- A scan changes each of its slots once, and the others not at all. -/
theorem scan_spec (now : UInt64) (is : List (Fin maxHandlers)) (his : is.Nodup) (s : State) :
    (∀ i, (scan now is s).1.handlers i =
        if i ∈ is then next now (s.handlers i) else s.handlers i) ∧
      (scan now is s).1.tickCount = s.tickCount ∧
      (scan now is s).1.intervalUs = s.intervalUs ∧
      (scan now is s).2 = is.flatMap (fun i => fires now i (s.handlers i)) ∧
      (Counted s → Counted (scan now is s).1) := by
  induction is generalizing s with
  | nil => exact ⟨fun i => rfl, rfl, rfl, rfl, id⟩
  | cons j is ih =>
    obtain ⟨hj, hnodup⟩ := List.nodup_cons.1 his
    obtain ⟨hhand, hticks, hint, hcalls, hcount⟩ := scanSlot_spec now s j
    obtain ⟨hhand', hticks', hint', hcalls', hcount'⟩ := ih hnodup (scanSlot now s j).1
    refine ⟨fun i => ?_, hticks'.trans hticks, hint'.trans hint, ?_, hcount' ∘ hcount⟩
    · refine (hhand' i).trans ?_
      rw [hhand]
      by_cases hij : i = j
      · subst hij
        rw [if_neg hj, if_pos (List.mem_cons_self ..), Function.update_self]
      · rw [Function.update_of_ne hij]
        simp [hij]
    · refine (congrArg₂ (· ++ ·) hcalls hcalls').trans ?_
      rw [List.flatMap_cons, hhand]
      congr 1
      refine List.flatMap_congr fun i hi => ?_
      rw [Function.update_of_ne (fun hij : i = j => hj (hij ▸ hi))]

/-- The time a tick is examined at. -/
def State.now (s : State) : UInt64 := (s.tickCount + 1) * s.intervalUs.toUInt64

theorem tickHandler_eq (s : State) :
    tickHandler s =
      scan s.now (List.finRange maxHandlers) { s with tickCount := s.tickCount + 1 } := by
  have hkind : irqFrameKind 0 = .contextSwitch := by decide
  unfold tickHandler State.now
  simp only [hkind, ne_eq, not_true_eq_false, if_false]

/-- A tick, slot by slot. -/
theorem tickHandler_spec (s : State) :
    (∀ i, (tickHandler s).1.handlers i = next s.now (s.handlers i)) ∧
      (tickHandler s).1.tickCount = s.tickCount + 1 ∧
      (tickHandler s).1.intervalUs = s.intervalUs ∧
      (tickHandler s).2 =
        (List.finRange maxHandlers).flatMap (fun i => fires s.now i (s.handlers i)) ∧
      (Counted s → Counted (tickHandler s).1) := by
  rw [tickHandler_eq]
  obtain ⟨hhand, hticks, hint, hcalls, hcount⟩ := scan_spec s.now _
    (List.nodup_finRange maxHandlers) { s with tickCount := s.tickCount + 1 }
  exact ⟨fun i => (hhand i).trans (if_pos (List.mem_finRange i)), hticks, hint, hcalls, hcount⟩

/-- The calls of a tick for one slot. -/
def callsFor (i : Fin maxHandlers) (s : State) : List Call :=
  (tickHandler s).2.filter fun c => c.slot = i

theorem slot_of_mem_fires {now : UInt64} {i : Fin maxHandlers} {h : TimerHandler} {c : Call}
    (hc : c ∈ fires now i h) : c.slot = i := by
  unfold fires callOf at hc
  split at hc
  · split at hc
    · rw [List.mem_singleton.1 hc]
    · exact absurd hc List.not_mem_nil
  · exact absurd hc List.not_mem_nil

theorem filter_fires (now : UInt64) (i j : Fin maxHandlers) (h : TimerHandler) :
    (fires now j h).filter (fun c => c.slot = i) = if j = i then fires now j h else [] := by
  split
  · next hij => exact List.filter_eq_self.2 fun c hc => by simp [slot_of_mem_fires hc, hij]
  · next hij => exact List.filter_eq_nil_iff.2 fun c hc => by simp [slot_of_mem_fires hc, hij]

theorem callsFor_eq (i : Fin maxHandlers) (s : State) :
    callsFor i s = fires s.now i (s.handlers i) := by
  unfold callsFor
  rw [(tickHandler_spec s).2.2.2.1, List.filter_flatMap]
  simp only [filter_fires]
  have hsplit : ∀ is : List (Fin maxHandlers), is.Nodup →
      is.flatMap (fun j => if j = i then fires s.now j (s.handlers j) else []) =
        if i ∈ is then fires s.now i (s.handlers i) else [] := by
    intro is his
    induction is with
    | nil => rfl
    | cons j is ih =>
      obtain ⟨hj, hnodup⟩ := List.nodup_cons.1 his
      rw [List.flatMap_cons, ih hnodup]
      by_cases hij : j = i
      · subst hij
        simp [hj]
      · simp [hij, Ne.symm hij]
  rw [hsplit _ (List.nodup_finRange maxHandlers), if_pos (List.mem_finRange i)]

/-! ## Registration -/

theorem freeSlot_eq_none {s : State} :
    freeSlot s = none ↔ ∀ i, (s.handlers i).active = true := by
  simp [freeSlot]

theorem active_freeSlot {s : State} {i : Fin maxHandlers} (h : freeSlot s = some i) :
    (s.handlers i).active = false := by
  simpa using List.find?_some h

theorem active_matchingSlot {s : State} {callback arg : UInt32} {i : Fin maxHandlers}
    (h : matchingSlot s callback arg = some i) : (s.handlers i).active = true := by
  have hall := List.find?_some h
  simp only [Bool.and_eq_true] at hall
  exact hall.1.1

/-- The count is at its bound exactly when there is no free slot. -/
theorem Counted.full_iff {s : State} (hs : Counted s) :
    s.handlerCount ≥ 8 ↔ freeSlot s = none := by
  have hle := card_activeSlots_le s
  rw [freeSlot_eq_none, ge_iff_le, UInt32.le_iff_toNat_le, hs,
    show (8 : UInt32).toNat = Fintype.card (Fin maxHandlers) from rfl]
  constructor
  · intro h i
    exact mem_activeSlots.1 ((Finset.card_eq_iff_eq_univ _).1
      (Nat.le_antisymm (Finset.card_le_univ _) h) ▸ Finset.mem_univ i)
  · intro h
    rw [(Finset.card_eq_iff_eq_univ (activeSlots s)).2
      (Finset.eq_univ_of_forall fun i => mem_activeSlots.2 (h i))]

theorem Counted.registerHandler_fails {s : State} (hs : Counted s) (callback arg : UInt32)
    (trigger : TimerTrigger) (interval : UInt64) :
    (registerHandler s callback arg trigger interval).2 = false ↔
      (∀ i, (s.handlers i).active = true) ∨ callback = 0 := by
  rw [← freeSlot_eq_none, ← hs.full_iff]
  unfold registerHandler
  split
  · next h => exact ⟨fun _ => h, fun _ => rfl⟩
  · next h =>
    obtain ⟨i, hi⟩ := Option.ne_none_iff_exists'.1 fun hnone => h (.inl (hs.full_iff.2 hnone))
    rw [hi]
    exact ⟨nofun, fun hor => absurd hor h⟩

/-- The calls keep the count. -/
theorem Counted.step {s : State} (hs : Counted s) (op : Op) : Counted (step s op) := by
  cases op with
  | register callback arg trigger interval =>
    change Counted (registerHandler s callback arg trigger interval).1
    unfold registerHandler
    split
    · exact hs
    · split
      · next i hi => exact hs.take (active_freeSlot hi) rfl
      · exact hs
  | unregister callback arg =>
    change Counted (unregisterHandler s callback arg).1
    unfold unregisterHandler
    split
    · exact hs
    · split
      · next i hi => exact hs.giveBack (active_matchingSlot hi) rfl
      · exact hs
  | tick => exact (tickHandler_spec s).2.2.2.2 hs

theorem Counted.after {s : State} (hs : Counted s) (ops : List Op) : Counted (after s ops) := by
  induction ops generalizing s with
  | nil => exact hs
  | cons op ops ih => exact ih (hs.step op)

theorem counted_init (interval : UInt32) : Counted (init .boot interval).1 := by
  unfold Counted
  have hnone : activeSlots (init .boot interval).1 = ∅ := by
    ext i
    simp [mem_activeSlots, init, State.boot, TimerHandler.zero]
  rw [hnone]
  rfl

/-- Time goes on by ticks, and the interval stays. -/
theorem step_clock (s : State) (op : Op) :
    (step s op).tickCount = s.tickCount + (if op = .tick then 1 else 0) ∧
      (step s op).intervalUs = s.intervalUs := by
  cases op with
  | register callback arg trigger interval =>
    change (registerHandler s callback arg trigger interval).1.tickCount = _ ∧
      (registerHandler s callback arg trigger interval).1.intervalUs = _
    unfold registerHandler State.set
    split
    · simp
    · split <;> simp
  | unregister callback arg =>
    change (unregisterHandler s callback arg).1.tickCount = _ ∧
      (unregisterHandler s callback arg).1.intervalUs = _
    unfold unregisterHandler State.set
    split
    · simp
    · split <;> simp
  | tick => exact ⟨(tickHandler_spec s).2.1, (tickHandler_spec s).2.2.1⟩

theorem after_intervalUs (s : State) (ops : List Op) :
    (after s ops).intervalUs = s.intervalUs := by
  induction ops generalizing s with
  | nil => rfl
  | cons op ops ih => exact (ih (step s op)).trans (step_clock s op).2

/-! ## Due times -/

/-- A registration. -/
structure Registration where
  callback : UInt32
  arg : UInt32
  trigger : TimerTrigger
  interval : UInt64
  deriving DecidableEq, Repr

/-- The ticks from a registration to its first call, and from one call to the next. -/
def Registration.period (r : Registration) (us : UInt32) : ℕ :=
  max 1 (r.interval.toNat ⌈/⌉ us.toNat)

/-- The time of the call is one that 64 bits can tell. -/
def Registration.Fits (r : Registration) (us : UInt32) : Prop :=
  r.period us * us.toNat < 2 ^ 64

theorem Registration.period_pos (r : Registration) (us : UInt32) : 0 < r.period us :=
  Nat.le_max_left _ _

/-- Before the last tick of a period the time is not up. -/
theorem Registration.mul_lt {r : Registration} {us : UInt32} (hus : 0 < us.toNat) {j : ℕ}
    (hpos : 0 < j) (hj : j < r.period us) : j * us.toNat < r.interval.toNat := by
  unfold Registration.period at hj
  have hceil : j < r.interval.toNat ⌈/⌉ us.toNat := (lt_max_iff.1 hj).resolve_left (by omega)
  by_contra hge
  exact absurd ((ceilDiv_le_iff_le_mul hus).2 (by rw [Nat.mul_comm]; omega)) (not_le.2 hceil)

theorem Registration.le_period_mul (r : Registration) {us : UInt32} (hus : 0 < us.toNat) :
    r.interval.toNat ≤ r.period us * us.toNat := by
  rw [Nat.mul_comm]
  exact (ceilDiv_le_iff_le_mul hus).1 (Nat.le_max_right _ _)

/-- The last tick of a period is at most an interval late. -/
theorem Registration.period_mul_lt (r : Registration) {us : UInt32} (hus : 0 < us.toNat) :
    r.period us * us.toNat < r.interval.toNat + us.toNat ∨ r.period us = 1 := by
  rcases Nat.lt_or_ge 1 (r.period us) with hlong | hshort
  · left
    have hlt := r.mul_lt hus (j := r.period us - 1) (by omega) (by omega)
    rw [Nat.sub_mul, one_mul] at hlt
    omega
  · exact .inr (Nat.le_antisymm hshort (r.period_pos us))

/-- The time between two ticks. -/
theorem elapsed_eq (t v : UInt64) {a b : ℕ} (h : a ≤ b) :
    (t + UInt64.ofNat b) * v - (t + UInt64.ofNat a) * v = UInt64.ofNat (b - a) * v := by
  rw [UInt64.ofNat_sub h]
  grind

/-- The time is up after a period of ticks, if it fits, and not before. -/
theorem due_iff {r : Registration} {us : UInt32} (hus : 0 < us.toNat) {j : ℕ} (hpos : 0 < j)
    (hj : j < r.period us ∨ j = r.period us) :
    UInt64.ofNat j * us.toUInt64 ≥ r.interval ↔ j = r.period us ∧ r.Fits us := by
  have hval : (UInt64.ofNat j * us.toUInt64).toNat = j * us.toNat % 2 ^ 64 := by
    rw [UInt64.toNat_mul, UInt64.toNat_ofNat', UInt32.toNat_toUInt64, Nat.mod_mul_mod]
  have hint : r.interval.toNat < 2 ^ 64 := r.interval.toNat_lt
  have hus' : us.toNat < 2 ^ 32 := us.toNat_lt
  rw [ge_iff_le, UInt64.le_iff_toNat_le, hval]
  rcases hj with hlt | rfl
  · have hless := r.mul_lt hus hpos hlt
    rw [Nat.mod_eq_of_lt (by omega)]
    exact ⟨fun h => absurd h (by omega), fun h => absurd h.1 (by omega)⟩
  · unfold Registration.Fits
    constructor
    · intro hle
      refine ⟨rfl, ?_⟩
      -- behind 64 bits the time starts again, and the last tick is too early
      by_contra hover
      rcases r.period_mul_lt hus with hlt | hone
      · omega
      · rw [hone] at hover
        omega
    · rintro ⟨-, hfits⟩
      rw [Nat.mod_eq_of_lt hfits]
      exact r.le_period_mul hus

/-! ## A handler over a run -/

/-- The tick of the last call, `k` ticks after the registration; ticks count from there on. -/
def Registration.lastCall (r : Registration) (us : UInt32) (k : ℕ) : ℕ :=
  match r.trigger with
  | .interval => k / r.period us * r.period us
  | _ => 0

/-- The slot of a registration made at the count `t`, `k` ticks later. -/
def slotAfter (r : Registration) (us : UInt32) (t : UInt64) (k : ℕ) : TimerHandler :=
  { callback := r.callback
    arg := r.arg
    trigger := r.trigger
    intervalUs := if r.trigger = .everyTick then us.toUInt64 else r.interval
    lastTriggeredUs := (t + UInt64.ofNat (r.lastCall us k)) * us.toUInt64
    active := r.trigger ≠ .oneShot ∨ k < r.period us }

/-- `tick` calls the handler of the slot, `k` ticks after its registration. -/
def Registration.DueAt (r : Registration) (us : UInt32) (k : ℕ) : Prop :=
  match r.trigger with
  | .everyTick => True
  | .interval => r.period us ∣ k
  | .oneShot => k = r.period us

instance (r : Registration) (us : UInt32) (k : ℕ) : Decidable (r.DueAt us k) := by
  unfold Registration.DueAt
  split <;> infer_instance

/-- The tick that follows `k` ticks after the registration is one the code gets right: it is not
the last of a period, or the period fits, or the period is of no concern. -/
def Registration.Sound (r : Registration) (us : UInt32) (k : ℕ) : Prop :=
  r.trigger = .everyTick ∨ r.Fits us ∨ k + 1 < r.period us

/-- The time from the tick `a` to the tick `b`. -/
theorem due_since {r : Registration} {us : UInt32} (hus : 0 < us.toNat) (t : UInt64) {a b : ℕ}
    (hab : a < b) (hb : b ≤ a + r.period us) :
    (t + UInt64.ofNat b) * us.toUInt64 - (t + UInt64.ofNat a) * us.toUInt64 ≥ r.interval ↔
      b = a + r.period us ∧ r.Fits us := by
  rw [elapsed_eq _ _ hab.le, due_iff hus (by omega) (by omega)]
  exact and_congr_left fun _ => by omega

theorem div_mul_add_eq_iff (k : ℕ) {d : ℕ} (hd : 0 < d) :
    k + 1 = k / d * d + d ↔ d ∣ k + 1 := by
  have hk := Nat.div_add_mod' k d
  have hmod := Nat.mod_lt k hd
  constructor
  · intro h
    rw [h]
    exact Nat.dvd_add (Nat.dvd_mul_left d _) (Nat.dvd_refl d)
  · intro h
    rw [← hk, Nat.add_assoc, Nat.dvd_add_right (Nat.dvd_mul_left d _)] at h
    have hle := Nat.le_of_dvd (Nat.succ_pos _) h
    omega

/-- One tick of a slot: whether its time is up. -/
theorem due_slotAfter {r : Registration} {us : UInt32} (hus : 0 < us.toNat) (t : UInt64) {k : ℕ}
    (hs : r.Sound us k) :
    ((slotAfter r us t k).active = true ∧
      (slotAfter r us t k).Due ((t + UInt64.ofNat (k + 1)) * us.toUInt64)) ↔
        r.DueAt us (k + 1) := by
  have hpos := r.period_pos us
  unfold TimerHandler.Due slotAfter Registration.DueAt Registration.lastCall
  unfold Registration.Sound at hs
  cases htrig : r.trigger with
  | everyTick => simp
  | interval =>
    have hk := Nat.div_add_mod' k (r.period us)
    have hmod := Nat.mod_lt k hpos
    have hfits : k + 1 = k / r.period us * r.period us + r.period us → r.Fits us := fun h =>
      (hs.resolve_left (by simp [htrig])).resolve_right fun hlt => by
        rw [Nat.div_eq_of_lt (by omega)] at h
        omega
    simp only [reduceCtorEq, if_false, ne_eq, not_false_eq_true, true_or, decide_true, true_and]
    rw [due_since hus t (by omega) (by omega), ← div_mul_add_eq_iff k hpos]
    exact and_iff_left_of_imp hfits
  | oneShot =>
    simp only [reduceCtorEq, if_false, ne_eq, not_true_eq_false, false_or, decide_eq_true_eq]
    constructor
    · rintro ⟨hlt, hdue⟩
      rw [due_since hus t (Nat.succ_pos k) (by omega)] at hdue
      omega
    · intro hk
      have hfits : r.Fits us :=
        (hs.resolve_left (by simp [htrig])).resolve_right (by omega)
      exact ⟨by omega, (due_since hus t (Nat.succ_pos k) (by omega)).2 ⟨by omega, hfits⟩⟩

/-- One tick of a slot: what is left there. -/
theorem next_slotAfter {r : Registration} {us : UInt32} (hus : 0 < us.toNat) (t : UInt64) {k : ℕ}
    (hs : r.Sound us k) :
    next ((t + UInt64.ofNat (k + 1)) * us.toUInt64) (slotAfter r us t k) =
      slotAfter r us t (k + 1) := by
  have hdue := due_slotAfter hus t hs
  unfold next
  by_cases hd : r.DueAt us (k + 1)
  · rw [if_pos (hdue.2 hd)]
    unfold Registration.DueAt at hd
    unfold slotAfter Registration.lastCall
    cases htrig : r.trigger with
    | everyTick => simp
    | interval =>
      rw [htrig] at hd
      simp [Nat.div_mul_cancel hd]
    | oneShot =>
      rw [htrig] at hd
      simp [show ¬ k + 1 < r.period us by omega]
  · rw [if_neg (mt hdue.1 hd)]
    unfold Registration.DueAt at hd
    unfold slotAfter Registration.lastCall
    cases htrig : r.trigger with
    | everyTick => simp
    | interval =>
      rw [htrig] at hd
      simp [Nat.succ_div_of_not_dvd hd]
    | oneShot =>
      rw [htrig] at hd
      have hiff : k < r.period us ↔ k + 1 < r.period us := by omega
      simp [hiff]

/-- One tick of a slot: the calls. -/
theorem fires_slotAfter {r : Registration} {us : UInt32} (hus : 0 < us.toNat) (t : UInt64) {k : ℕ}
    (hs : r.Sound us k) (hcb : r.callback ≠ 0) (i : Fin maxHandlers) :
    fires ((t + UInt64.ofNat (k + 1)) * us.toUInt64) i (slotAfter r us t k) =
      if r.DueAt us (k + 1) then [⟨i, r.callback, r.arg⟩] else [] := by
  unfold fires
  simp only [due_slotAfter hus t hs]
  exact if_congr Iff.rfl (if_pos hcb) rfl

/-! ## Runs -/

/-- The ticks among some calls. -/
def ticksIn (ops : List Op) : ℕ := ops.count .tick

/-- No call of `register_handler` or `unregister_handler` changes the slot: it is neither taken
nor given up. -/
def LeftAlone (i : Fin maxHandlers) : State → List Op → Prop
  | _, [] => True
  | s, op :: ops =>
    (op ≠ .tick → (step s op).handlers i = s.handlers i) ∧ LeftAlone i (step s op) ops

/-- The slot is as it should be `k` ticks after a registration at the count `t`. -/
structure Elapsed (s : State) (i : Fin maxHandlers) (r : Registration) (us : UInt32) (t : UInt64)
    (k : ℕ) : Prop where
  intervalUs : s.intervalUs = us
  tickCount : s.tickCount = t + UInt64.ofNat k
  slot : s.handlers i = slotAfter r us t k

theorem Elapsed.now_eq {s : State} {i : Fin maxHandlers} {r : Registration} {us : UInt32}
    {t : UInt64} {k : ℕ} (h : Elapsed s i r us t k) :
    s.now = (t + UInt64.ofNat (k + 1)) * us.toUInt64 := by
  unfold State.now
  rw [h.intervalUs, h.tickCount, UInt64.add_assoc, UInt64.ofNat_add]
  rfl

theorem Elapsed.tick {s : State} {i : Fin maxHandlers} {r : Registration} {us : UInt32}
    (hus : 0 < us.toNat) {t : UInt64} {k : ℕ} (h : Elapsed s i r us t k) (hs : r.Sound us k) :
    Elapsed (step s .tick) i r us t (k + 1) where
  intervalUs := (step_clock s .tick).2.trans h.intervalUs
  tickCount := by
    rw [(step_clock s .tick).1, h.tickCount, if_pos rfl, UInt64.add_assoc, UInt64.ofNat_add]
    rfl
  slot := by
    refine ((tickHandler_spec s).1 i).trans ?_
    rw [h.slot, h.now_eq]
    exact next_slotAfter hus t hs

theorem Elapsed.other {s : State} {i : Fin maxHandlers} {r : Registration} {us : UInt32}
    {t : UInt64} {k : ℕ} (h : Elapsed s i r us t k) {op : Op} (hop : op ≠ .tick)
    (hleft : (step s op).handlers i = s.handlers i) : Elapsed (step s op) i r us t k where
  intervalUs := (step_clock s op).2.trans h.intervalUs
  tickCount := by
    rw [(step_clock s op).1, h.tickCount, if_neg hop]
    simp
  slot := hleft.trans h.slot

/-- A slot left alone over a run. -/
theorem Elapsed.run {i : Fin maxHandlers} {r : Registration} {us : UInt32} (hus : 0 < us.toNat)
    {t : UInt64} {ops : List Op} {s : State} {k : ℕ} (h : Elapsed s i r us t k)
    (hleft : LeftAlone i s ops) (hs : ∀ j, k ≤ j → j < k + ticksIn ops → r.Sound us j) :
    Elapsed (after s ops) i r us t (k + ticksIn ops) := by
  induction ops generalizing s k with
  | nil => exact h
  | cons op ops ih =>
    by_cases hop : op = .tick
    · subst hop
      have hcount : ticksIn (.tick :: ops) = ticksIn ops + 1 := List.count_cons_self
      rw [hcount] at hs ⊢
      have hnext := ih (h.tick hus (hs k (Nat.le_refl k) (by omega))) hleft.2
        fun j hj hlt => hs j (by omega) (by omega)
      rwa [show k + 1 + ticksIn ops = k + (ticksIn ops + 1) by omega] at hnext
    · have hcount : ticksIn (op :: ops) = ticksIn ops := List.count_cons_of_ne hop
      rw [hcount] at hs ⊢
      exact ih (h.other hop (hleft.1 hop)) hleft.2 hs

/-- What a registration into slot `i` of `s` promises: over every run that leaves the slot alone,
the next tick calls the handler if it is the due one and makes no call for the slot otherwise, and
the slot is in use as long as calls are to come. -/
def OnTime (s : State) (i : Fin maxHandlers) (r : Registration) (us : UInt32) : Prop :=
  ∀ ops, LeftAlone i s ops →
    callsFor i (after s ops) =
        (if r.DueAt us (ticksIn ops + 1) then [⟨i, r.callback, r.arg⟩] else []) ∧
      (((after s ops).handlers i).active = true ↔
        r.trigger ≠ .oneShot ∨ ticksIn ops < r.period us)

theorem Elapsed.callsFor_eq {s : State} {i : Fin maxHandlers} {r : Registration} {us : UInt32}
    (hus : 0 < us.toNat) {t : UInt64} {k : ℕ} (h : Elapsed s i r us t k) (hs : r.Sound us k)
    (hcb : r.callback ≠ 0) :
    callsFor i s = if r.DueAt us (k + 1) then [⟨i, r.callback, r.arg⟩] else [] := by
  rw [Pit.callsFor_eq, h.slot, h.now_eq, fires_slotAfter hus t hs hcb]

/-- A period that does not fit ends without a call. -/
theorem Elapsed.callsFor_late {s : State} {i : Fin maxHandlers} {r : Registration} {us : UInt32}
    (hus : 0 < us.toNat) {t : UInt64} (h : Elapsed s i r us t (r.period us - 1))
    (htrig : r.trigger ≠ .everyTick) (hfits : ¬ r.Fits us) : callsFor i s = [] := by
  have hpos := r.period_pos us
  have hlast : r.lastCall us (r.period us - 1) = 0 := by
    unfold Registration.lastCall
    cases r.trigger with
    | everyTick => rfl
    | interval => simp [Nat.div_eq_of_lt (Nat.sub_lt hpos Nat.one_pos)]
    | oneShot => rfl
  have hdue := due_since (r := r) hus t (a := 0) (b := r.period us) hpos (by omega)
  rw [Pit.callsFor_eq, h.slot, h.now_eq, Nat.sub_add_cancel hpos]
  refine if_neg fun ⟨_, hnow⟩ => hfits ?_
  unfold TimerHandler.Due slotAfter at hnow
  rw [hlast] at hnow
  cases hr : r.trigger with
  | everyTick => exact absurd hr htrig
  | interval =>
    simp only [hr, reduceCtorEq, if_false] at hnow
    exact (hdue.1 hnow).2
  | oneShot =>
    simp only [hr, reduceCtorEq, if_false] at hnow
    exact (hdue.1 hnow).2

/-- Ticks alone leave every slot alone. -/
theorem leftAlone_ticks (i : Fin maxHandlers) (n : ℕ) (s : State) :
    LeftAlone i s (List.replicate n .tick) := by
  induction n generalizing s with
  | zero => trivial
  | succ n ih => exact ⟨fun h => absurd rfl h, ih _⟩

/-- Without other calls, one tick before the first call is due. -/
theorem Elapsed.beforeCall {s : State} {i : Fin maxHandlers} {r : Registration} {us : UInt32}
    (hus : 0 < us.toNat) {t : UInt64} (h : Elapsed s i r us t 0) :
    Elapsed (after s (List.replicate (r.period us - 1) .tick)) i r us t (r.period us - 1) := by
  have hticks : ticksIn (List.replicate (r.period us - 1) .tick) = r.period us - 1 :=
    List.count_replicate_self
  have hrun := h.run hus (leftAlone_ticks i (r.period us - 1) s) fun j _ hj =>
    .inr (.inr (by rw [hticks] at hj; omega))
  rwa [hticks, Nat.zero_add] at hrun

theorem Elapsed.onTime_iff {s : State} {i : Fin maxHandlers} {r : Registration} {us : UInt32}
    (hus : 0 < us.toNat) {t : UInt64} (h : Elapsed s i r us t 0) (hcb : r.callback ≠ 0) :
    OnTime s i r us ↔ r.trigger = .everyTick ∨ r.Fits us := by
  constructor
  · intro hon
    by_contra hbad
    rw [not_or] at hbad
    have hcalls := (hon _ (leftAlone_ticks i (r.period us - 1) s)).1
    have hdue : r.DueAt us (ticksIn (List.replicate (r.period us - 1) .tick) + 1) := by
      rw [ticksIn, List.count_replicate_self, Nat.sub_add_cancel (r.period_pos us)]
      unfold Registration.DueAt
      split
      · trivial
      · exact Nat.dvd_refl _
      · rfl
    rw [(h.beforeCall hus).callsFor_late hus hbad.1 hbad.2, if_pos hdue] at hcalls
    exact absurd hcalls.symm (List.cons_ne_nil _ _)
  · intro hgood ops hleft
    have hsound : ∀ k, r.Sound us k := fun k => hgood.imp_right .inl
    have hrun := h.run hus hleft fun j _ _ => hsound j
    rw [Nat.zero_add] at hrun
    refine ⟨hrun.callsFor_eq hus (hsound _) hcb, ?_⟩
    rw [hrun.slot]
    exact decide_eq_true_iff

/-- A registration that succeeds, in the slot it takes. -/
theorem elapsed_registerHandler {s : State} {r : Registration} {i : Fin maxHandlers}
    (hi : freeSlot s = some i)
    (hok : (registerHandler s r.callback r.arg r.trigger r.interval).2 = true) :
    Elapsed (registerHandler s r.callback r.arg r.trigger r.interval).1 i r s.intervalUs
      s.tickCount 0 := by
  obtain ⟨hticks, hint⟩ := step_clock s (.register r.callback r.arg r.trigger r.interval)
  refine ⟨hint, hticks.trans (congrArg (s.tickCount + ·) (if_neg (by simp))), ?_⟩
  unfold registerHandler at hok ⊢
  split at hok
  · exact absurd hok (by simp)
  · next hnot =>
    have hzero : r.lastCall s.intervalUs 0 = 0 := by
      unfold Registration.lastCall
      cases r.trigger <;> simp
    have hpos := r.period_pos s.intervalUs
    rw [if_neg hnot, hi]
    unfold State.set slotAfter
    simp [hzero, hpos]

/-- The slots a registration does not take. -/
theorem registerHandler_other {s : State} {i j : Fin maxHandlers} (hi : freeSlot s = some i)
    (hj : j ≠ i) (callback arg : UInt32) (trigger : TimerTrigger) (interval : UInt64) :
    (registerHandler s callback arg trigger interval).1.handlers j = s.handlers j := by
  unfold registerHandler
  split
  · rfl
  · rw [hi]
    exact Function.update_of_ne hj _ _

/-- `unregister_handler` gives up a slot in use with its callback and argument, or none. -/
theorem unregisterHandler_slot (s : State) (callback arg : UInt32) (j : Fin maxHandlers) :
    (unregisterHandler s callback arg).1.handlers j = s.handlers j ∨
      (s.handlers j).active = true ∧ (s.handlers j).callback = callback ∧
        (s.handlers j).arg = arg ∧
        ((unregisterHandler s callback arg).1.handlers j).active = false := by
  unfold unregisterHandler
  split
  · exact .inl rfl
  · split
    · next i hi =>
      by_cases hj : j = i
      · subst hj
        have hall := List.find?_some hi
        simp only [Bool.and_eq_true, beq_iff_eq] at hall
        exact .inr ⟨hall.1.1, hall.1.2, hall.2, by simp [State.set]⟩
      · exact .inl (Function.update_of_ne hj _ _)
    · exact .inl rfl

/-- A free slot stays free until it is taken. -/
theorem LeftAlone.inactive {i : Fin maxHandlers} {ops : List Op} {s : State}
    (h : LeftAlone i s ops) (hi : (s.handlers i).active = false) :
    ((after s ops).handlers i).active = false := by
  induction ops generalizing s with
  | nil => exact hi
  | cons op ops ih =>
    refine ih h.2 ?_
    by_cases hop : op = .tick
    · subst hop
      change ((tickHandler s).1.handlers i).active = false
      rw [(tickHandler_spec s).1 i, next, if_neg (by simp [hi])]
      exact hi
    · rw [h.1 hop]
      exact hi

/-- The table of a state: the counter, when `register_handler` fails, what `unregister_handler`
gives up, and that a free slot is silent until it is taken. -/
structure Table (s : State) : Prop where
  count : s.handlerCount.toNat = (activeSlots s).card
  fails (callback arg : UInt32) (trigger : TimerTrigger) (interval : UInt64) :
    (registerHandler s callback arg trigger interval).2 = false ↔
      (∀ i, (s.handlers i).active = true) ∨ callback = 0
  releases (callback arg : UInt32) (i : Fin maxHandlers) :
    (unregisterHandler s callback arg).1.handlers i = s.handlers i ∨
      (s.handlers i).active = true ∧ (s.handlers i).callback = callback ∧
        (s.handlers i).arg = arg ∧
        ((unregisterHandler s callback arg).1.handlers i).active = false
  silent (i : Fin maxHandlers) : (s.handlers i).active = false →
    ∀ ops, LeftAlone i s ops → callsFor i (after s ops) = []

theorem Counted.table {s : State} (hs : Counted s) : Table s where
  count := hs
  fails := hs.registerHandler_fails
  releases := unregisterHandler_slot s
  silent i hi ops hleft := by
    rw [callsFor_eq]
    exact if_neg fun h => by simp [hleft.inactive hi] at h

/-- In every state after `init` the table is in order, and a registration that succeeds takes one
free slot, where it is called on time if and only if its period fits. -/
theorem timers_iff {us : UInt32} (hus : 0 < us) (ops : List Op) :
    Table (after (init .boot us).1 ops) ∧
      ∀ r : Registration,
        let s := after (init .boot us).1 ops
        let s' := (registerHandler s r.callback r.arg r.trigger r.interval).1
        (registerHandler s r.callback r.arg r.trigger r.interval).2 = true →
        ∃ i, (s.handlers i).active = false ∧ (s'.handlers i).active = true ∧
          (∀ j, j ≠ i → s'.handlers j = s.handlers j) ∧
          (OnTime s' i r us ↔ r.trigger = .everyTick ∨ r.Fits us) := by
  have hcount := (counted_init us).after ops
  have hint : (after (init .boot us).1 ops).intervalUs = us := after_intervalUs _ ops
  have hpos : 0 < us.toNat := UInt32.lt_iff_toNat_lt.1 hus
  generalize after (init .boot us).1 ops = s at hcount hint
  refine ⟨hcount.table, fun r => ?_⟩
  intro s s' hok
  have hnot := mt (hcount.registerHandler_fails r.callback r.arg r.trigger r.interval).2
    (by rw [hok]; simp)
  rw [not_or, ← freeSlot_eq_none] at hnot
  obtain ⟨i, hi⟩ := Option.ne_none_iff_exists'.1 hnot.1
  have helapsed := elapsed_registerHandler hi hok
  have hactive : (s'.handlers i).active = true := by
    rw [helapsed.slot]
    exact decide_eq_true (.inr (r.period_pos _))
  rw [hint] at helapsed
  exact ⟨i, active_freeSlot hi, hactive, fun j hj => registerHandler_other hi hj _ _ _ _,
    helapsed.onTime_iff hpos hnot.2⟩

theorem timers_iff_oneShot : (0 : UInt32) < 1000 ∧
    Table (after (init .boot 1000).1 [.register 1 2 .oneShot 25000, .tick]) :=
  ⟨by decide, (timers_iff (by decide) _).1⟩

/-- The longest one-shot timer, with a tick of a millisecond. -/
def longest : Registration := ⟨1, 0, .oneShot, 18446744073709551615⟩

def longestStarted : State :=
  (registerHandler (init .boot 1000).1 longest.callback longest.arg longest.trigger
    longest.interval).1

/-- Its only call is due at tick 18446744073709552, and does not come there. -/
theorem oneShot_lost : longest.period 1000 = 18446744073709552 ∧
    LeftAlone 0 longestStarted (List.replicate 18446744073709551 .tick) ∧
    callsFor 0 (after longestStarted (List.replicate 18446744073709551 .tick)) = [] := by
  have hperiod : longest.period 1000 = 18446744073709552 := by
    unfold Registration.period longest
    rw [Nat.ceilDiv_eq_add_pred_div]
    rfl
  have hfits : ¬ longest.Fits 1000 := by
    unfold Registration.Fits
    rw [hperiod]
    decide
  have hstart : Elapsed longestStarted 0 longest 1000 0 0 :=
    elapsed_registerHandler (s := (init .boot 1000).1) (by decide) (by decide)
  have hlast := hstart.beforeCall (by decide)
  rw [hperiod] at hlast
  refine ⟨hperiod, leftAlone_ticks _ _ _, ?_⟩
  exact hlast.callsFor_late (by decide) (by decide) hfits

end Ospp.Pit
