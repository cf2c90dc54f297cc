import Ospp.Driver.Serial
import Ospp.Klib.Log
import Ospp.Klib.SpinLock

/-!
# Log lines on the serial port

`Log::printf` takes `output_lock`, makes a line in a buffer on its stack, and `puts` gives the
characters of the buffer to the port. Here any number of threads do so, on a port from its
initialisation on, and each small step of a line is a step of its own.

`console_lines`: the lines come out whole, in the order in which their threads released the lock;
each thread's are in the order of its calls, and none is left out or printed twice. Characters are
lost only where the port is too slow for the driver.
-/

namespace Ospp

open Trans Guarded

namespace Console

open Serial

/-! ## The source -/

/-- A call of `Log::printf`: its arguments, the memory, and the buffer on its stack. `junk` is what the
array of `_vprintf` starts with. -/
structure Request where
  env : LogEnv
  level : LogLevel
  file : ℕ
  line : UInt32
  func : UInt32
  call : LogCall
  junk : Mem
  stack : Buf
  buffer : ℕ

section Source

variable (U : FloatUnit) (env : UartEnv) (initialized : Bool) (fuel : ℕ)

def format (r : Request) : K (Option LogState) :=
  logPrintf U r.junk fuel r.env r.level r.file r.line r.func r.call r.stack r.buffer

/-- `Log::printf` once it has the lock. -/
def print (r : Request) (u : Uart) : Option Uart :=
  match format U fuel r with
  | .ok (some s) => puts env initialized s.b.mem fuel r.buffer u
  | .ok none => some u
  | .error _ => none

/-! ## Its steps -/

/-- The register of a thread that prints: what is left to print, until the loop of `puts` ends. -/
abbrev Left := Option (Mem × ℕ)

/-- The line is made. -/
def make (r : Request) : Uart → Left → Option (Uart × Left)
  | u, _ =>
    match format U fuel r with
    | .ok (some s) => some (u, some (s.b.mem, r.buffer))
    | .ok none => some (u, none)
    | .error _ => none

/-- One turn of the loop. -/
def turn : Uart → Left → Option (Uart × Left)
  | u, none => some (u, none)
  | u, some (m, s) =>
    if m.read8 s = 0 then some (u, none)
    else some (kernelPutc env initialized u (m.read8 s), some (m, s + 1))

/-- The loop has ended. -/
def ended : Uart → Left → Option (Uart × Left)
  | u, none => some (u, none)
  | _, some _ => none

def printObject : Object Uart Left Request where
  entry _ := none
  body r := make U fuel r :: (List.replicate fuel (turn env initialized) ++ [ended])

/-- Operations that print, whatever their steps are. -/
def Implements {ρ : Type} (O : Object Uart ρ Request) : Prop :=
  ∀ r u, (O.run r u).map Prod.fst = print U env initialized fuel r u

end Source

section

variable {U : FloatUnit} {env : UartEnv} {initialized : Bool} {fuel : ℕ}

theorem finish_ended (u : Uart) :
    finish (List.replicate fuel (turn env initialized) ++ [ended]) (u, none) = some (u, none) := by
  induction fuel with
  | zero => rfl
  | succ fuel ih => exact ih

theorem finish_turns : ∀ {fuel s : ℕ} {m : Mem} {u : Uart},
    (finish (List.replicate fuel (turn env initialized) ++ [ended]) (u, some (m, s))).map
      Prod.fst = puts env initialized m fuel s u := by
  intro fuel
  induction fuel with
  | zero => intro s m u; rfl
  | succ fuel ih =>
    intro s m u
    show Option.map _ ((turn env initialized u (some (m, s))).bind
      (finish (List.replicate fuel (turn env initialized) ++ [ended]))) = _
    rw [turn, puts]
    split_ifs with h0
    · rw [Option.bind_some, finish_ended]
      rfl
    · rw [Option.bind_some, ih]

theorem implements_printObject :
    Implements U env initialized fuel (printObject U env initialized fuel) := by
  intro r u
  show Option.map _ ((make U fuel r u none).bind
    (finish (List.replicate fuel (turn env initialized) ++ [ended]))) = _
  unfold make print
  cases format U fuel r with
  | error _ => rfl
  | ok s =>
    cases s with
    | none =>
      dsimp only
      rw [Option.bind_some, finish_ended]
      rfl
    | some s =>
      dsimp only
      rw [Option.bind_some, finish_turns]

/-! ## The text of a line -/

/-- What stands in the buffer, up to a zero byte. -/
def lineText (outs : List (List UInt8)) : List UInt8 := (outs.flatten.take 255).takeWhile (· ≠ 0)

/-- The memory once the buffer is filled with zeros. -/
def Request.mem (r : Request) : Mem := (logStart r.stack r.buffer).b.mem

/-- The pieces of the line are printed, and this is what comes of them. -/
structure Says (U : FloatUnit) (fuel : ℕ) (r : Request) (text : List UInt8) : Prop where
  buffer : r.buffer ≠ 0
  text : ∃ calls outs, logCalls r.env r.mem r.level r.file r.line r.func r.call = .ok calls ∧
    List.Forall₂ (Prints U r.junk fuel r.mem r.buffer) calls outs ∧ text = lineText outs

theorem getD_takeWhile : ∀ {cs : List UInt8} {i : ℕ}, i ≤ (cs.takeWhile (· ≠ 0)).length →
    (cs.takeWhile (· ≠ 0)).getD i 0 = cs.getD i 0 := by
  intro cs
  induction cs with
  | nil => intro i _; rfl
  | cons c cs ih =>
    intro i hi
    by_cases hc : c = 0
    · rw [List.takeWhile_cons_of_neg (by simpa using hc)] at hi ⊢
      obtain rfl := Nat.le_zero.1 hi
      exact hc.symm
    · rw [List.takeWhile_cons_of_pos (by simpa using hc)] at hi ⊢
      cases i with
      | zero => rfl
      | succ i => exact ih (Nat.le_of_succ_le_succ hi)

theorem length_lineText_lt (outs : List (List UInt8)) : (lineText outs).length < 256 := by
  have h1 := (List.takeWhile_prefix (l := outs.flatten.take 255) (· ≠ 0)).length_le
  have h2 := List.length_take_le 255 outs.flatten
  unfold lineText
  omega

theorem not_mem_lineText (outs : List (List UInt8)) : 0 ∉ lineText outs := by
  intro h
  have hne := List.all_eq_true.1 List.all_takeWhile 0 h
  exact absurd hne (by decide)

/-- **One line.** -/
theorem print_eq {r : Request} {text : List UInt8} (h : Says U fuel r text) (hfuel : 256 ≤ fuel)
    (u : Uart) :
    print U env initialized fuel r u = some (text.foldl (kernelPutc env initialized) u) := by
  obtain ⟨hbuf, calls, outs, hcalls, hprints, rfl⟩ := h
  obtain ⟨s, hformat, hs⟩ := logPrintf_eq hbuf hcalls hprints
  have hformat : format U fuel r = .ok (some s) := hformat
  have hheld : HoldsString s.b.mem r.buffer (lineText outs) := by
    apply spells_read8.1
    apply spells_iff.2
    intro i hi
    rw [hs.bytes i (by have := length_lineText_lt outs; omega)]
    exact (getD_takeWhile hi).symm
  rw [print, hformat]
  exact puts_eq initialized hheld (not_mem_lineText outs)
    (lt_of_lt_of_le (length_lineText_lt outs) hfuel)

/-! ## Lines -/

variable {ρ θ : Type} {O : Object Uart ρ Request} {text : Request → List UInt8}

/-- The lines of some requests. -/
def lines (text : Request → List UInt8) (done : List (θ × Request × ρ)) : List UInt8 :=
  done.flatMap fun x => text x.2.1

theorem run_eq (hO : Implements U env initialized fuel O) (hfuel : 256 ≤ fuel) {r : Request}
    (hs : Says U fuel r (text r)) (u : Uart) :
    ∃ x, O.run r u = some ((text r).foldl (kernelPutc env initialized) u, x) := by
  have h := hO r u
  rw [print_eq hs hfuel u] at h
  obtain ⟨⟨u', x⟩, hrun, hu⟩ := Option.map_eq_some_iff.1 h
  exact ⟨x, by rw [hrun]; cases hu; rfl⟩

/-- Lines one after the other. -/
theorem replays_lines (hO : Implements U env initialized fuel O) (hfuel : 256 ≤ fuel) :
    ∀ {done : List (θ × Request × ρ)} {u u' : Uart}, (∀ x ∈ done, Says U fuel x.2.1 (text x.2.1)) →
      Replays O u done u' → u' = (lines text done).foldl (kernelPutc env initialized) u := by
  intro done
  induction done with
  | nil => intro u u' _ h; exact h.symm
  | cons x done ih =>
    obtain ⟨t, r, reg⟩ := x
    rintro u u' hs ⟨u₁, hrun, hrest⟩
    obtain ⟨y, hrun'⟩ := run_eq hO hfuel (hs _ List.mem_cons_self) u
    rw [hrun] at hrun'
    cases hrun'
    rw [ih (fun x hx => hs x (List.mem_cons_of_mem _ hx)) hrest]
    unfold lines
    rw [List.flatMap_cons, List.foldl_append]

/-- What came of `init` and some texts behind it: `u₁` is the port after `init`. -/
structure Out (env : UartEnv) (ok : Bool) (u₀ u₁ : Uart) (cs : List UInt8) (u : Uart) : Prop where
  sent : ok = true → Session env u₀ u cs
  silent : ok = false → u = u₁

theorem Out.of_tested {baud : BaudRate} {ok : Bool} {u₀ u : Uart} (h : Tested env baud u₀ ok u)
    (head cs : List UInt8) :
    Out env ok u₀ (head.foldl (kernelPutc env ok) u) (head ++ cs)
      (cs.foldl (kernelPutc env ok) (head.foldl (kernelPutc env ok) u)) := by
  refine ⟨fun hok => ?_, fun hok => ?_⟩
  · subst hok
    rw [← List.foldl_append]
    exact (h.ready_of_ok rfl).session (h.passed rfl) _
  · subst hok
    exact foldl_uninitialized _ _

/-! ## The threads -/

variable [DecidableEq θ]

/-- The console at work. -/
structure Lines (env : UartEnv) (ok : Bool) (text : Request → List UInt8) (u₀ u₁ : Uart)
    (head : List UInt8) (as : List (SpinLock.Act Request θ))
    (s : SpinLock.State Uart ρ Request θ) : Prop where
  /-- Each line that a thread asked for is done or in progress, in the order of its calls. -/
  once : ∀ t, s.history t = SpinLock.callsOf t as
  /-- The lines that are done came out one after the other. The line in progress is behind them when
  its thread has taken the steps that are left. -/
  whole : ∃ u, Out env ok u₀ u₁ (head ++ lines text s.done) u ∧ (s.locked = false → s.data = u) ∧
    ∀ t r left reg, s.pc t = .inside r left reg → ∃ u' reg',
      finish left (s.data, reg) = some (u', reg') ∧
        Out env ok u₀ u₁ (head ++ lines text s.done ++ text r) u'

/-- **The console.** From `init` on any threads print, in any interleaving of their steps. -/
theorem console_lines (U : FloatUnit) (env : UartEnv) (u₀ : Uart) (h : u₀.thr = none)
    (baud : BaudRate) (report : Bool → List UInt8) (fuel : ℕ) (hfuel : 256 ≤ fuel)
    (O : Bool → Object Uart ρ Request) (hO : ∀ ok, Implements U env ok fuel (O ok)) :
    ∃ ok u₁, init env baud report false u₀ = (ok, u₁) ∧
      ((portExists env u₀).1 = true → Responsive env → ok = true) ∧
      ∀ (as : List (SpinLock.Act Request θ)) s (text : Request → List UInt8),
        Run (SpinLock.Step (O ok)) (.start u₁) as s → (∀ t r, .tryLock t r ∉ as) →
        (∀ t r, .lock t r ∈ as → Says U fuel r (text r)) →
        Lines env ok text u₀ u₁ (report ok) as s := by
  obtain ⟨ok, u', hinit, htested⟩ := init_spec env h baud report
  refine ⟨ok, _, hinit, htested.responsive, fun as s text hrun htry hsays => ?_⟩
  have hhist : ∀ t, s.history t = SpinLock.callsOf t as := fun t =>
    SpinLock.run_history hrun (SpinLock.patient_start _) htry t
  have hknown : ∀ t r, r ∈ s.history t → Says U fuel r (text r) := by
    intro t r hr
    rw [hhist t, SpinLock.mem_callsOf] at hr
    exact hsays t r (hr.resolve_right (htry t r))
  refine ⟨hhist, ?_⟩
  obtain ⟨bs, g, hg, hR⟩ := SpinLock.exists_guarded_run hrun
  obtain ⟨d, hrep, hdata, hfin⟩ := (hR.atomic (serial_run hg)).serial
  obtain rfl := replays_lines (hO ok) hfuel
    (fun x hx => hknown x.1 x.2.1 (SpinLock.mem_history_done hx)) hrep
  refine ⟨_, Out.of_tested htested _ _, hdata, fun t r left reg hpc => ?_⟩
  obtain ⟨reg', hone⟩ := run_eq (hO ok) hfuel
    (hknown t r (SpinLock.mem_history_pc (by rw [hpc]; rfl)))
    ((lines text s.done).foldl (kernelPutc env ok) ((report ok).foldl (kernelPutc env ok) u'))
  refine ⟨_, reg', (hfin t r left reg hpc).trans hone, ?_⟩
  rw [← List.foldl_append, List.append_assoc]
  exact Out.of_tested htested _ _

end

def sampleRequest : Request where
  env := lineEnv
  level := .info
  file := 0
  line := 1
  func := 0
  call := upCall
  junk _ := 0
  stack := ⟨lineMem, []⟩
  buffer := 4096

def sampleLine : List UInt8 := ascii "<  INFO>: up\n"

theorem says_sampleRequest : Says exactUnit 256 sampleRequest sampleLine := by
  have hmem : sampleRequest.mem = lineMem := logStart_line
  refine ⟨by decide, [levelCall, upCall], [ascii "<  INFO>: ", ascii "up\n"], rfl, ?_, by decide⟩
  rw [hmem]
  exact .cons ⟨⟨levelText, by decide, level_clear⟩, printed_level _ (by omega), by decide⟩
    (.cons ⟨⟨upText, by decide, up_clear⟩, printed_up _ (by omega), by decide⟩ .nil)

/-- Thread `1` comes while thread `0` has the lock. -/
def sampleRun : List (SpinLock.Act Request Bool) :=
  [.lock false sampleRequest, .exec false, .lock true sampleRequest, .exec true, .exec true]

theorem console_lines_sample : ∃ u₁ s u reg,
    init eager baud115200 (fun _ => []) false reset = (true, u₁) ∧
      Run (SpinLock.Step (printObject exactUnit eager true 256)) (.start u₁) sampleRun s ∧
      finish ((printObject exactUnit eager true 256).body sampleRequest) (s.data, none) =
        some (u, reg) ∧ u.wire = sampleLine ++ [13] := by
  have hr : Responsive eager := fun n => ⟨0, by decide, rfl⟩
  obtain ⟨ok, u₁, hinit, hok, hlines⟩ := console_lines (θ := Bool) exactUnit eager reset rfl
    baud115200 (fun _ => []) 256 le_rfl (fun ok => printObject exactUnit eager ok 256)
    fun _ => implements_printObject
  have htrue := hok (by decide) hr
  subst htrue
  obtain ⟨s, hrun, hpc, hdone⟩ : ∃ s : SpinLock.State Uart Left Request Bool,
      Run (SpinLock.Step (printObject exactUnit eager true 256)) (.start u₁) sampleRun s ∧
        s.pc false = .inside sampleRequest
          ((printObject exactUnit eager true 256).body sampleRequest) none ∧ s.done = [] :=
    ⟨_, run_of_foldlM (fun _ _ _ => Iff.rfl) rfl, rfl, rfl⟩
  obtain ⟨_, _, _, _, hinside⟩ := hlines sampleRun s (fun _ => sampleLine) hrun
    (by simp [sampleRun]) fun t r h => by
      have hmem : r = sampleRequest := by
        simp [sampleRun] at h
        tauto
      rw [hmem]
      exact says_sampleRequest
  obtain ⟨u, reg, hfin, hout⟩ := hinside _ _ _ _ hpc
  refine ⟨u₁, s, u, reg, hinit, hrun, hfin, ?_⟩
  rw [(hout.sent rfl).all hr, hdone]
  decide

end Console

end Ospp
