import Mathlib.Algebra.Order.Floor.Div
import Mathlib.Tactic

/-!
# The interval timer

`pit::init`, `sleep_ticks` and `sleep_us` from `driver/pit.cpp`, and the state the timer handlers
share with them.

The divisor is computed in 32 bits, so it is the rounded one only up to an interval of 3599 us,
where the hardware admits 54924 (`programs_iff`). `sleep_us` turns microseconds into whole ticks by
rounding down, so it is a tick short whenever the interval does not divide the time and is not
longer than it either (`sleepsLongEnough_iff`).
-/

namespace Ospp.Pit

inductive TimerTrigger where
  | everyTick
  | interval
  | oneShot
  deriving DecidableEq, Repr

/-- `TimerHandler`; function pointers and arguments are addresses, and 0 is `nullptr`. -/
structure TimerHandler where
  callback : UInt32
  arg : UInt32
  trigger : TimerTrigger
  intervalUs : UInt64
  lastTriggeredUs : UInt64
  active : Bool
  deriving DecidableEq, Repr

/-- An entry of the zero-initialised table. -/
def TimerHandler.zero : TimerHandler := ⟨0, 0, .everyTick, 0, 0, false⟩

/-- `MAX_HANDLERS`. -/
abbrev maxHandlers : ℕ := 8

/-- The static data of `pit`. -/
structure State where
  tickCount : UInt64
  intervalUs : UInt32
  handlers : Fin maxHandlers → TimerHandler
  handlerCount : UInt32

/-- Before `init`. -/
def State.boot : State := ⟨0, 0, fun _ => .zero, 0⟩

/-! ## Programming the channel -/

/-- `PIT_CHANNEL_0`. -/
def channel0 : UInt16 := 0x40

/-- `PIT_COMMAND`. -/
def command : UInt16 := 0x43

/-- `PIT_BASE_FREQUENCY`. -/
def baseFrequency : UInt32 := 1193182

def calculatePitDivisorUs (target : UInt32) : UInt16 :=
  ((baseFrequency * target + 500000) / 1000000).toUInt16

/-- The state after `init`, and its writes to the ports. It also makes `tick_handler` the handler
of IRQ 0. -/
def init (s : State) (interval : UInt32) : State × List (UInt16 × UInt8) :=
  let divisor := calculatePitDivisorUs interval
  ({ s with intervalUs := interval, handlerCount := 0, tickCount := 0 },
    [(command, 0x36), (channel0, (divisor &&& 0xFF).toUInt8),
      (channel0, ((divisor >>> 8) &&& 0xFF).toUInt8)])

/-- The divisor that port writes load in the access mode lobyte/hibyte. -/
def loaded : List (UInt16 × UInt8) → Option ℕ
  | [(0x43, 0x36), (0x40, low), (0x40, high)] => some (low.toNat + 256 * high.toNat)
  | _ => none

/-- The divisor for an interval of `us` microseconds, rounded to the nearest integer. -/
def roundedDivisor (us : ℕ) : ℕ := (1193182 * us + 500000) / 1000000

/-- `init` programs the rounded divisor. -/
def Programs (interval : UInt32) : Prop :=
  loaded (init .boot interval).2 = some (roundedDivisor interval.toNat)

theorem bytes_eq (d : UInt16) :
    (d &&& 0xFF).toUInt8.toNat + 256 * ((d >>> 8) &&& 0xFF).toUInt8.toNat = d.toNat := by
  have hd : d.toNat < 65536 := d.toNat_lt
  have hlow : d.toNat &&& 255 = d.toNat % 256 := Nat.and_two_pow_sub_one_eq_mod d.toNat 8
  have hhigh : (d.toNat / 256) &&& 255 = d.toNat / 256 % 256 :=
    Nat.and_two_pow_sub_one_eq_mod _ 8
  have hshift : (d >>> 8).toNat = d.toNat / 256 := by
    rw [UInt16.toNat_shiftRight, show (8 : UInt16).toNat % 16 = 8 from rfl,
      Nat.shiftRight_eq_div_pow]
  rw [UInt16.toNat_toUInt8, UInt16.toNat_toUInt8, UInt16.toNat_and, UInt16.toNat_and, hshift,
    show (0xFF : UInt16).toNat = 255 from rfl, hlow, hhigh]
  omega

theorem loaded_init (s : State) (interval : UInt32) :
    loaded (init s interval).2 = some (calculatePitDivisorUs interval).toNat :=
  congrArg some (bytes_eq (calculatePitDivisorUs interval))

/-- The product and the sum wrap at 32 bits, the quotient does not lose anything. -/
theorem toNat_calculatePitDivisorUs (interval : UInt32) :
    (calculatePitDivisorUs interval).toNat =
      (1193182 * interval.toNat + 500000) % 4294967296 / 1000000 := by
  unfold calculatePitDivisorUs baseFrequency
  rw [UInt32.toNat_toUInt16, UInt32.toNat_div, UInt32.toNat_add, UInt32.toNat_mul,
    show (1193182 : UInt32).toNat = 1193182 from rfl,
    show (500000 : UInt32).toNat = 500000 from rfl,
    show (1000000 : UInt32).toNat = 1000000 from rfl, Nat.mod_add_mod]
  exact Nat.mod_eq_of_lt (by omega)

theorem programs_iff {interval : UInt32} (hmax : roundedDivisor interval.toNat ≤ 65535) :
    Programs interval ↔ interval.toNat ≤ 3599 := by
  unfold Programs roundedDivisor at *
  rw [loaded_init, toNat_calculatePitDivisorUs, Option.some_inj]
  constructor
  · intro h
    -- a wrapped divisor is at most 4294
    by_contra hlong
    omega
  · intro h
    rw [Nat.mod_eq_of_lt (by omega)]

/-! ## Sleeping -/

/-- `while ((ticks() - start) < target_ticks)`, where the `k`-th read of the counter returns
`ticks k`: the number of the read that ends the loop. -/
def sleepLoop (ticks : ℕ → UInt64) (start target : UInt64) : ℕ → ℕ → Option ℕ
  | 0, _ => none
  | fuel + 1, k =>
    if ticks k - start < target then sleepLoop ticks start target fuel (k + 1) else some k

def sleepTicks (ticks : ℕ → UInt64) (target : UInt32) (fuel : ℕ) : Option ℕ :=
  sleepLoop ticks (ticks 0) target.toUInt64 fuel 1

def targetTicks (s : State) (target : UInt32) : UInt32 :=
  let ticks := target / s.intervalUs
  if ticks = 0 then 1 else ticks

def sleepUs (s : State) (ticks : ℕ → UInt64) (target : UInt32) (fuel : ℕ) : Option ℕ :=
  sleepTicks ticks (targetTicks s target) fuel

/-- `sleep_us` does not return before the counter has advanced by the time in ticks, rounded up.
`t k` is how often the counter has been incremented when it is read for the `k`-th time. -/
def SleepsLongEnough (interval target : UInt32) : Prop :=
  ∀ t : ℕ → ℕ, Monotone t → ∀ fuel k,
    sleepUs (init .boot interval).1 (fun n => UInt64.ofNat (t n)) target fuel = some k →
      t 0 + target.toNat ⌈/⌉ interval.toNat ≤ t k

theorem toNat_targetTicks (s : State) (target : UInt32) :
    (targetTicks s target).toNat = max 1 (target.toNat / s.intervalUs.toNat) := by
  unfold targetTicks
  have hdiv : (target / s.intervalUs).toNat = target.toNat / s.intervalUs.toNat :=
    UInt32.toNat_div _ _
  by_cases h : target / s.intervalUs = 0
  · rw [if_pos h, ← hdiv, h]
    rfl
  · have hpos : 0 < (target / s.intervalUs).toNat :=
      Nat.pos_of_ne_zero fun hzero => h (UInt32.toNat_inj.1 hzero)
    rw [if_neg h, hdiv]
    omega

/-- What the loop has seen when it ends. -/
theorem sleepLoop_some {ticks : ℕ → UInt64} {start target : UInt64} {fuel j k : ℕ}
    (h : sleepLoop ticks start target fuel j = some k) :
    j ≤ k ∧ target ≤ ticks k - start := by
  induction fuel generalizing j with
  | zero => exact absurd h nofun
  | succ fuel ih =>
    rw [sleepLoop] at h
    split at h
    · obtain ⟨hj, ht⟩ := ih h
      exact ⟨Nat.le_of_succ_le hj, ht⟩
    · next hge =>
      cases h
      exact ⟨Nat.le_refl _, UInt64.not_lt.1 hge⟩

/-- The difference of two readings is at most the number of increments between them. -/
theorem sub_ofNat_le {a b : ℕ} (h : a ≤ b) :
    (UInt64.ofNat b - UInt64.ofNat a).toNat ≤ b - a := by
  rw [← UInt64.ofNat_sub h, UInt64.toNat_ofNat']
  exact Nat.mod_le _ _

/-- When every increment is seen, the loop ends after as many as it waits for. -/
theorem sleepLoop_counting {target : ℕ} (ht : target < 2 ^ 64) {fuel k : ℕ} (hk : k ≤ target)
    (hfuel : target < k + fuel) :
    sleepLoop UInt64.ofNat (UInt64.ofNat 0) (UInt64.ofNat target) fuel k = some target := by
  induction fuel generalizing k with
  | zero => omega
  | succ fuel ih =>
    have hread : (UInt64.ofNat k - UInt64.ofNat 0).toNat = k := by
      rw [← UInt64.ofNat_sub (Nat.zero_le k)]
      exact UInt64.toNat_ofNat_of_lt' (Nat.lt_of_le_of_lt hk ht)
    have htarget : (UInt64.ofNat target).toNat = target := UInt64.toNat_ofNat_of_lt' ht
    rw [sleepLoop]
    rcases Nat.lt_or_ge k target with hlt | hge
    · rw [if_pos (UInt64.lt_iff_toNat_lt.2 (by rwa [hread, htarget]))]
      exact ih hlt (by omega)
    · rw [if_neg (fun hlt => absurd (UInt64.lt_iff_toNat_lt.1 hlt) (by omega)),
        Nat.le_antisymm hk hge]

/-- `sleep_us` waits for its target ticks, and there are readings for which it waits for no more. -/
theorem sleepsLongEnough_iff_targetTicks {interval target : UInt32} :
    SleepsLongEnough interval target ↔
      target.toNat ⌈/⌉ interval.toNat ≤ max 1 (target.toNat / interval.toNat) := by
  have hticks := toNat_targetTicks (init .boot interval).1 target
  have hcast : (targetTicks (init .boot interval).1 target).toUInt64.toNat =
      max 1 (target.toNat / interval.toNat) := (UInt32.toNat_toUInt64 _).trans hticks
  constructor
  · intro h
    have hlt : max 1 (target.toNat / interval.toNat) < 2 ^ 64 := by
      rw [← hcast]
      exact UInt64.toNat_lt _
    have hrun : sleepUs (init .boot interval).1 (fun n => UInt64.ofNat (id n)) target
        (max 1 (target.toNat / interval.toNat)) =
          some (max 1 (target.toNat / interval.toNat)) := by
      unfold sleepUs sleepTicks
      rw [show (targetTicks (init .boot interval).1 target).toUInt64 =
        UInt64.ofNat (max 1 (target.toNat / interval.toNat)) from
          UInt64.toNat_inj.1 (hcast.trans (UInt64.toNat_ofNat_of_lt' hlt).symm)]
      exact sleepLoop_counting hlt (Nat.le_max_left _ _) (by omega)
    simpa using h id monotone_id _ _ hrun
  · intro h t ht fuel k hrun
    obtain ⟨-, hge⟩ := sleepLoop_some hrun
    have hle := UInt64.le_iff_toNat_le.1 hge
    rw [hcast] at hle
    have hadv : target.toNat ⌈/⌉ interval.toNat ≤ t k - t 0 :=
      h.trans (hle.trans (sub_ofNat_le (ht (Nat.zero_le k))))
    have hmono : t 0 ≤ t k := ht (Nat.zero_le k)
    omega

theorem ceilDiv_le_max_iff {a b : ℕ} (hb : 0 < b) :
    a ⌈/⌉ b ≤ max 1 (a / b) ↔ a < b ∨ b ∣ a := by
  rw [ceilDiv_le_iff_le_mul hb]
  constructor
  · intro h
    rcases Nat.lt_or_ge a b with hlt | hge
    · exact .inl hlt
    · right
      have hone : 1 ≤ a / b := (Nat.one_le_div_iff hb).2 hge
      rw [Nat.max_eq_right hone] at h
      exact Nat.dvd_of_mod_eq_zero (by have := Nat.div_add_mod a b; omega)
  · rintro (hlt | hdvd)
    · calc a ≤ b * 1 := by omega
        _ ≤ b * max 1 (a / b) := Nat.mul_le_mul_left b (Nat.le_max_left _ _)
    · calc a = b * (a / b) := (Nat.mul_div_cancel' hdvd).symm
        _ ≤ b * max 1 (a / b) := Nat.mul_le_mul_left b (Nat.le_max_right _ _)

theorem sleepsLongEnough_iff {interval : UInt32} (h : 0 < interval.toNat) (target : UInt32) :
    SleepsLongEnough interval target ↔
      target.toNat < interval.toNat ∨ interval.toNat ∣ target.toNat :=
  sleepsLongEnough_iff_targetTicks.trans (ceilDiv_le_max_iff h)

/-! ## The time base -/

/-- The intervals the hardware has a divisor for. -/
def Admissible (interval : UInt32) : Prop :=
  1 ≤ roundedDivisor interval.toNat ∧ roundedDivisor interval.toNat ≤ 65535

instance : DecidablePred Admissible := fun _ => inferInstanceAs (Decidable (_ ∧ _))

theorem Admissible.pos {interval : UInt32} (h : Admissible interval) : 0 < interval.toNat := by
  have hone := h.1
  unfold roundedDivisor at hone
  omega

theorem timeBase_iff {interval : UInt32} (h : Admissible interval) (target : UInt32) :
    (Programs interval ∧ SleepsLongEnough interval target) ↔
      interval.toNat ≤ 3599 ∧
        (target.toNat < interval.toNat ∨ interval.toNat ∣ target.toNat) :=
  and_congr (programs_iff h.2) (sleepsLongEnough_iff h.pos target)

theorem timeBase_iff_millisecond : Admissible 1000 ∧
    Programs 1000 ∧ SleepsLongEnough 1000 25000 :=
  ⟨by decide, (timeBase_iff (by decide) 25000).2 (by decide)⟩

/-- For 3600 us the divisor loaded is 0, and for 15 us in steps of 10 us one step is enough. -/
theorem timeBase_fails : (Admissible 3600 ∧ loaded (init .boot 3600).2 = some 0 ∧
    ¬ Programs 3600) ∧ Admissible 10 ∧ ¬ SleepsLongEnough 10 15 := by
  refine ⟨⟨by decide, by rw [loaded_init, toNat_calculatePitDivisorUs]; rfl, ?_⟩, by decide, ?_⟩
  · exact fun h => absurd ((programs_iff (by decide)).1 h) (by decide)
  · exact fun h => absurd ((sleepsLongEnough_iff (by decide) 15).1 h) (by decide)

end Ospp.Pit
