import Mathlib.Tactic
import Ospp.Klib.CString

/-!
# The serial port

`driver/serial.hpp` against the UART it drives. The driver polls the line status register, a million
times at most, before it writes a byte, and writes a carriage return behind every line feed. The
UART has one byte waiting for the line; when it goes out is up to the line (`UartEnv`), so it may go
out between any two accesses to the bus. A byte written while another one waits is written over.

`serial_session` is about a port from its initialisation on: nothing is written over and nothing is
sent twice, and on a line that takes every byte within a million accesses the text arrives as it is.
-/

namespace Ospp

namespace Serial

/-! ## The UART -/

/-- `Reg`. The first two are those of the divisor latch while `DLAB` is set. -/
inductive Reg where
  | dar | ier | fcr | lcr | mcr | lsr
  deriving DecidableEq

abbrev Reg.dlLow : Reg := .dar

abbrev Reg.dlHigh : Reg := .ier

/-- What the line and the world around do, by the number of the access. -/
structure UartEnv where
  /-- The byte that waits, if there is one, goes out before the access. -/
  shifts : ℕ → Bool
  /-- The bits of the line status register that the driver does not use. -/
  other : ℕ → UInt8
  /-- The interrupt identification register. -/
  iir : ℕ → UInt8

structure Uart where
  /-- The number of accesses so far. -/
  now : ℕ
  ier : UInt8
  fcr : UInt8
  lcr : UInt8
  mcr : UInt8
  dll : UInt8
  dlh : UInt8
  /-- The byte that waits for the line. -/
  thr : Option UInt8
  rbr : Option UInt8
  line : List UInt8
  /-- The number of bytes written over. -/
  lost : ℕ

namespace Uart

def dlab (u : Uart) : Bool := u.lcr &&& 0x80 != 0

def loop (u : Uart) : Bool := u.mcr &&& 0x10 != 0

/-- The byte that waits goes out, in loopback mode to the receiver. -/
def shift (u : Uart) : Uart :=
  match u.thr with
  | none => u
  | some c =>
    if u.loop then { u with thr := none, rbr := some c }
    else { u with thr := none, line := u.line ++ [c] }

def tick (env : UartEnv) (u : Uart) : Uart :=
  { (if env.shifts u.now then u.shift else u) with now := u.now + 1 }

/-- The line status register. -/
def status (u : Uart) (other : UInt8) : UInt8 :=
  other &&& 0xDE ||| (if u.rbr.isSome then 0x01 else 0) ||| (if u.thr.isNone then 0x20 else 0)

/-- `inb`. -/
def read (env : UartEnv) (reg : Reg) (u : Uart) : UInt8 × Uart :=
  let n := u.now
  let u := u.tick env
  match reg with
  | .dar => if u.dlab then (u.dll, u) else (u.rbr.getD 0, { u with rbr := none })
  | .ier => (if u.dlab then u.dlh else u.ier, u)
  | .fcr => (env.iir n, u)
  | .lcr => (u.lcr, u)
  | .mcr => (u.mcr, u)
  | .lsr => (u.status (env.other n), u)

/-- `outb`. -/
def write (env : UartEnv) (reg : Reg) (v : UInt8) (u : Uart) : Uart :=
  let u := u.tick env
  match reg with
  | .dar =>
    if u.dlab then { u with dll := v }
    else { u with thr := some v, lost := if u.thr.isSome then u.lost + 1 else u.lost }
  | .ier => if u.dlab then { u with dlh := v } else { u with ier := v }
  | .fcr =>
    { u with
      fcr := v
      rbr := if v &&& 0x02 != 0 then none else u.rbr
      thr := if v &&& 0x04 != 0 then none else u.thr }
  | .lcr => { u with lcr := v }
  | .mcr => { u with mcr := v }
  | .lsr => u

/-- What is on the line, and what will be. -/
def wire (u : Uart) : List UInt8 := u.line ++ u.thr.toList

end Uart

/-! ## The driver -/

section

variable (env : UartEnv)

/-- `exists`. -/
def portExists (u : Uart) : Bool × Uart :=
  let (v, u) := u.read env .lsr
  (v != 0xFF, u)

def isTransmitEmpty (u : Uart) : Bool × Uart :=
  let (v, u) := u.read env .lsr
  (v &&& 0x20 != 0, u)

def isReceiveReady (u : Uart) : Bool × Uart :=
  let (v, u) := u.read env .lsr
  (v &&& 0x01 != 0, u)

/-- `while (!ready() && --timeout)`, with what is left of `timeout`. -/
def wait (ready : Uart → Bool × Uart) : ℕ → Uart → ℕ × Uart
  | 0, u => (0, u)
  | timeout + 1, u =>
    let (ok, u) := ready u
    if ok then (timeout + 1, u) else wait ready timeout u

/-- The first value of `timeout`. -/
def timeout₀ : ℕ := 1000000

def getc (u : Uart) : UInt8 × Uart :=
  let (timeout, u) := wait (isReceiveReady env) timeout₀ u
  if timeout = 0 then (0, u) else u.read env .dar

/-- `putc` up to the call of itself, and whether it has written. -/
def send (c : UInt8) (u : Uart) : Bool × Uart :=
  let (timeout, u) := wait (isTransmitEmpty env) timeout₀ u
  if timeout = 0 then (false, u) else (true, u.write env .dar c)

/-- `putc`. A line feed is followed by a carriage return, which is followed by nothing. -/
def putc (c : UInt8) (u : Uart) : Uart :=
  let (sent, u) := send env c u
  if sent && c == 10 then (send env 13 u).2 else u

/-- `_putc`, for a port that is initialised or not. -/
def kernelPutc (initialized : Bool) (u : Uart) (c : UInt8) : Uart :=
  if initialized then putc env c u else u

/-- `puts`. -/
def puts (initialized : Bool) (m : Mem) : ℕ → ℕ → Uart → Option Uart
  | 0, _, _ => none
  | fuel + 1, s, u =>
    if m.read8 s = 0 then some u
    else puts initialized m fuel (s + 1) (kernelPutc env initialized u (m.read8 s))

structure BaudRate where
  high : UInt8
  low : UInt8

/-- `Baud115200`. -/
def baud115200 : BaudRate := ⟨0x00, 0x01⟩

/-- `set_interrupts(port, false)`. -/
def maskInterrupts (u : Uart) : Uart :=
  let u := u.write env .ier 0
  let (v, u) := u.read env .fcr
  u.write env .fcr (v ||| 0x02)

/-- `init` up to the loopback test. -/
def setup (baud : BaudRate) (u : Uart) : Uart :=
  let u := maskInterrupts env u
  let u := u.write env .lcr 0x80
  let u := u.write env .dlLow baud.low
  let u := u.write env .dlHigh baud.high
  let u := u.write env .lcr 0x03
  let u := u.write env .fcr 0xC7
  u.write env .mcr 0x10

/-- `init` of the primary port, which then prints on itself; the text depends on the outcome of the
test. -/
def init (baud : BaudRate) (report : Bool → List UInt8) (initialized : Bool) (u : Uart) :
    Bool × Uart :=
  let (there, u) := portExists env u
  if !there || initialized then (initialized, u)
  else
    let u := setup env baud u
    let u := putc env 65 u
    let (c, u) := getc env u
    let initialized := c == 65
    let u := u.write env .mcr 0x0F
    (initialized, (report initialized).foldl (kernelPutc env initialized) u)

end

/-! ## The status register -/

theorem status_bits : ∀ (x : BitVec 8) (a b : Bool),
    ((UInt8.ofBitVec x &&& 0xDE ||| (if a then 0x01 else 0) ||| (if b then 0x20 else 0)) &&& 0x20 !=
        0) = b ∧
      ((UInt8.ofBitVec x &&& 0xDE ||| (if a then 0x01 else 0) ||| (if b then 0x20 else 0)) &&& 0x01 !=
        0) = a := by
  decide

/-- A register that reads `0xFF` says that a byte was received. -/
theorem status_absent : ∀ (x : BitVec 8) (b : Bool),
    (UInt8.ofBitVec x &&& 0xDE ||| 0 ||| (if b then 0x20 else 0) != 0xFF) = true := by
  decide

section

variable (env : UartEnv) (u : Uart)

theorem isTransmitEmpty_eq :
    isTransmitEmpty env u = ((u.tick env).thr.isNone, u.tick env) := by
  have h := (status_bits (env.other u.now).toBitVec (u.tick env).rbr.isSome
    (u.tick env).thr.isNone).1
  exact Prod.ext h rfl

theorem isReceiveReady_eq :
    isReceiveReady env u = ((u.tick env).rbr.isSome, u.tick env) := by
  have h := (status_bits (env.other u.now).toBitVec (u.tick env).rbr.isSome
    (u.tick env).thr.isNone).2
  exact Prod.ext h rfl

theorem exists_eq : portExists env u = ((portExists env u).1, u.tick env) := rfl

/-- A port that has received nothing is there. -/
theorem exists_of_none (h : (u.tick env).rbr = none) : (portExists env u).1 = true := by
  have hs := status_absent (env.other u.now).toBitVec (u.tick env).thr.isNone
  show ((u.tick env).status (env.other u.now) != 0xFF) = true
  unfold Uart.status
  rw [h]
  exact hs

end

/-! ## Time passing -/

/-- What only the driver changes, and the count of what is lost. -/
def Uart.config (u : Uart) : (UInt8 × UInt8 × UInt8) × (UInt8 × UInt8 × UInt8) × ℕ :=
  ((u.ier, u.fcr, u.lcr), (u.mcr, u.dll, u.dlh), u.lost)

/-- Some time has passed, and the byte that waits may have gone out. -/
structure Passed (u u' : Uart) : Prop where
  config : u'.config = u.config
  wire : u.loop = false → u'.wire = u.wire
  idle : u.thr = none → u'.thr = none ∧ u'.line = u.line ∧ u'.rbr = u.rbr
  echo : u.loop = true → u'.line = u.line ∧
    (u'.thr = u.thr ∧ u'.rbr = u.rbr ∨ u'.thr = none ∧ ∀ c, u.thr = some c → u'.rbr = some c)

section

variable {env : UartEnv} {u u' u'' : Uart}

theorem lcr_of_config (h : u'.config = u.config) : u'.lcr = u.lcr :=
  congrArg (fun x => x.1.2.2) h

theorem mcr_of_config (h : u'.config = u.config) : u'.mcr = u.mcr :=
  congrArg (fun x => x.2.1.1) h

theorem dll_of_config (h : u'.config = u.config) : u'.dll = u.dll :=
  congrArg (fun x => x.2.1.2.1) h

theorem dlh_of_config (h : u'.config = u.config) : u'.dlh = u.dlh :=
  congrArg (fun x => x.2.1.2.2) h

theorem lost_of_config (h : u'.config = u.config) : u'.lost = u.lost :=
  congrArg (fun x => x.2.2) h

theorem dlab_of_config (h : u'.config = u.config) : u'.dlab = u.dlab := by
  unfold Uart.dlab
  rw [lcr_of_config h]

theorem loop_of_config (h : u'.config = u.config) : u'.loop = u.loop := by
  unfold Uart.loop
  rw [mcr_of_config h]

theorem passed_refl (u : Uart) : Passed u u :=
  ⟨rfl, fun _ => rfl, fun h => ⟨h, rfl, rfl⟩, fun _ => ⟨rfl, Or.inl ⟨rfl, rfl⟩⟩⟩

theorem Passed.trans (h : Passed u u') (h' : Passed u' u'') : Passed u u'' := by
  have hloop := loop_of_config h.config
  refine ⟨h'.config.trans h.config, fun hl => ?_, fun ht => ?_, fun hl => ?_⟩
  · rw [h'.wire (by rw [hloop, hl]), h.wire hl]
  · obtain ⟨h1, h2, h3⟩ := h.idle ht
    obtain ⟨h4, h5, h6⟩ := h'.idle h1
    exact ⟨h4, h5.trans h2, h6.trans h3⟩
  · obtain ⟨h1, h2⟩ := h.echo hl
    obtain ⟨h3, h4⟩ := h'.echo (by rw [hloop, hl])
    refine ⟨h3.trans h1, ?_⟩
    rcases h2 with ⟨e1, e2⟩ | ⟨e1, e2⟩
    · rcases h4 with ⟨e3, e4⟩ | ⟨e3, e4⟩
      · exact Or.inl ⟨e3.trans e1, e4.trans e2⟩
      · exact Or.inr ⟨e3, fun c hc => e4 c (e1.trans hc)⟩
    · obtain ⟨e3, _, e4⟩ := h'.idle e1
      exact Or.inr ⟨e3, fun c hc => e4.trans (e2 c hc)⟩

theorem shift_of_none (h : u.thr = none) : u.shift = u := by
  unfold Uart.shift
  rw [h]

theorem tick_of_none (h : u.thr = none) : u.tick env = { u with now := u.now + 1 } := by
  unfold Uart.tick
  rw [shift_of_none h, ite_self]

theorem shift_spec (u : Uart) : Passed u u.shift ∧ u.shift.thr = none ∧
    (u.loop = true → ∀ c, u.thr = some c → u.shift.rbr = some c) := by
  cases ht : u.thr with
  | none =>
    rw [shift_of_none ht]
    exact ⟨passed_refl u, ht, fun _ c hc => by cases hc⟩
  | some c =>
    unfold Uart.shift
    rw [ht]
    dsimp only
    cases hl : u.loop with
    | true =>
      rw [if_pos rfl]
      refine ⟨⟨rfl, fun h => ?_, fun h => ?_, fun _ => ⟨rfl, Or.inr ⟨rfl, fun c' hc' => ?_⟩⟩⟩, rfl,
        fun _ c' hc' => ?_⟩
      · rw [hl] at h
        cases h
      · rw [ht] at h
        cases h
      · rw [ht] at hc'
        exact hc'
      · exact hc'
    | false =>
      rw [if_neg Bool.false_ne_true]
      refine ⟨⟨rfl, fun _ => ?_, fun h => ?_, fun h => ?_⟩, rfl, fun h => by cases h⟩
      · unfold Uart.wire
        rw [ht]
        exact List.append_nil _
      · rw [ht] at h
        cases h
      · rw [hl] at h
        cases h

theorem tick_spec (env : UartEnv) (u : Uart) : Passed u (u.tick env) ∧
    (env.shifts u.now = true → (u.tick env).thr = none ∧
      (u.loop = true → ∀ c, u.thr = some c → (u.tick env).rbr = some c)) := by
  obtain ⟨⟨h1, h2, h3, h4⟩, h5, h6⟩ := shift_spec u
  unfold Uart.tick
  cases hs : env.shifts u.now with
  | true =>
    rw [if_pos rfl]
    exact ⟨⟨h1, h2, h3, h4⟩, fun _ => ⟨h5, h6⟩⟩
  | false =>
    rw [if_neg Bool.false_ne_true]
    exact ⟨⟨rfl, fun _ => rfl, fun h => ⟨h, rfl, rfl⟩, fun _ => ⟨rfl, Or.inl ⟨rfl, rfl⟩⟩⟩,
      fun h => by cases h⟩

/-- The line takes every byte before the driver gives up. -/
def Responsive (env : UartEnv) : Prop := ∀ n, ∃ j < timeout₀, env.shifts (n + j) = true

/-! ## Polling -/

variable {ready : Uart → Bool × Uart} {p : Uart → Bool}

theorem wait_spec (hready : ∀ u, ready u = (p (u.tick env), u.tick env)) :
    ∀ (timeout : ℕ) (u : Uart), Passed u (wait ready timeout u).2 ∧
      (wait ready timeout u).2.now ≤ u.now + timeout ∧
      ((wait ready timeout u).1 ≠ 0 → p (wait ready timeout u).2 = true) := by
  intro timeout
  induction timeout with
  | zero => exact fun u => ⟨passed_refl u, Nat.le_refl _, fun h => absurd rfl h⟩
  | succ timeout ih =>
    intro u
    obtain ⟨htick, _⟩ := tick_spec env u
    have hnow : (u.tick env).now = u.now + 1 := rfl
    rw [wait, hready]
    dsimp only
    by_cases hp : p (u.tick env) = true
    · rw [if_pos hp]
      exact ⟨htick, by rw [hnow]; omega, fun _ => hp⟩
    · rw [if_neg hp]
      obtain ⟨h1, h2, h3⟩ := ih (u.tick env)
      exact ⟨htick.trans h1, by rw [hnow] at h2; omega, h3⟩

/-- What is polled for comes when the byte that waits goes out. -/
theorem wait_ready (hready : ∀ u, ready u = (p (u.tick env), u.tick env)) {Q : Uart → Prop}
    (hshift : ∀ u, Q u → env.shifts u.now = true → p (u.tick env) = true)
    (hstay : ∀ u, Q u → p (u.tick env) = true ∨ Q (u.tick env)) :
    ∀ (timeout : ℕ) (u : Uart), Q u → (∃ j < timeout, env.shifts (u.now + j) = true) →
      (wait ready timeout u).1 ≠ 0 := by
  intro timeout
  induction timeout with
  | zero =>
    rintro u _ ⟨j, hj, _⟩
    exact absurd hj (Nat.not_lt_zero j)
  | succ timeout ih =>
    rintro u hQ ⟨j, hj, hs⟩
    rw [wait, hready]
    dsimp only
    by_cases hp : p (u.tick env) = true
    · rw [if_pos hp]
      exact Nat.succ_ne_zero timeout
    · rw [if_neg hp]
      refine ih _ ((hstay u hQ).resolve_left hp) ?_
      cases j with
      | zero => exact absurd (hshift u hQ hs) hp
      | succ j =>
        refine ⟨j, Nat.succ_lt_succ_iff.1 hj, ?_⟩
        rw [show (u.tick env).now + j = u.now + (j + 1) by
          rw [show (u.tick env).now = u.now + 1 from rfl]; omega]
        exact hs

/-! ## Writing -/

/-- The port is in its normal mode. -/
structure Open (u : Uart) : Prop where
  dlab : u.dlab = false
  loop : u.loop = false

theorem Open.of_config (h : Open u) (hc : u'.config = u.config) : Open u' :=
  ⟨(dlab_of_config hc).trans h.dlab, (loop_of_config hc).trans h.loop⟩

/-- A byte that is written is not written over another one. -/
theorem write_dar (hd : u.dlab = false) (ht : u.thr = none) (c : UInt8) :
    u.write env .dar c = { u with now := u.now + 1, thr := some c } := by
  unfold Uart.write
  rw [tick_of_none ht]
  dsimp only
  rw [show ({ u with now := u.now + 1 } : Uart).dlab = u.dlab from rfl, hd, ht]
  rfl

variable (env) in
/-- **One byte.** It is behind all that was sent before, or the driver has given up. -/
theorem send_spec (h : Open u) (c : UInt8) : (send env c u).2.config = u.config ∧
    (send env c u).2.wire = u.wire ++ (if (send env c u).1 then [c] else []) ∧
    (Responsive env → (send env c u).1 = true) := by
  obtain ⟨hpass, _, hready⟩ :=
    wait_spec (p := fun u => u.thr.isNone) (isTransmitEmpty_eq env) timeout₀ u
  have hresp : Responsive env → (wait (isTransmitEmpty env) timeout₀ u).1 ≠ 0 := fun hr =>
    wait_ready (p := fun u => u.thr.isNone) (isTransmitEmpty_eq env) (Q := fun _ => True)
      (fun u _ hs => by rw [((tick_spec env u).2 hs).1]; rfl) (fun _ _ => Or.inr trivial) timeout₀ u
      trivial (hr u.now)
  have hsend : send env c u = if (wait (isTransmitEmpty env) timeout₀ u).1 = 0 then
      (false, (wait (isTransmitEmpty env) timeout₀ u).2)
      else (true, (wait (isTransmitEmpty env) timeout₀ u).2.write env .dar c) := rfl
  generalize wait (isTransmitEmpty env) timeout₀ u = r at hpass hready hresp hsend
  by_cases h0 : r.1 = 0
  · rw [if_pos h0] at hsend
    rw [hsend]
    exact ⟨hpass.config, by rw [hpass.wire h.loop, if_neg Bool.false_ne_true, List.append_nil],
      fun hr => absurd h0 (hresp hr)⟩
  · have hthr : r.2.thr = none := Option.isNone_iff_eq_none.1 (hready h0)
    rw [if_neg h0, write_dar (h.of_config hpass.config).dlab hthr] at hsend
    rw [hsend]
    refine ⟨hpass.config, ?_, fun _ => rfl⟩
    rw [if_pos rfl, ← hpass.wire h.loop]
    unfold Uart.wire
    rw [hthr]
    dsimp only
    rw [Option.toList_none, List.append_nil]
    rfl

/-- What the driver makes of a character. -/
def expand (c : UInt8) : List UInt8 := if c = 10 then [10, 13] else [c]

/-- What was sent for some characters. -/
structure Sent (env : UartEnv) (cs : List UInt8) (u u' : Uart) : Prop where
  config : u'.config = u.config
  wire : ∃ s, u'.wire = u.wire ++ s ∧ s.Sublist (cs.flatMap expand) ∧
    (Responsive env → s = cs.flatMap expand)

variable (env) in
theorem putc_spec (h : Open u) (c : UInt8) : Sent env [c] u (putc env c u) := by
  obtain ⟨h1, h2, h3⟩ := send_spec env h c
  have hexp : [c].flatMap expand = expand c := List.flatMap_singleton ..
  refine ⟨?_, ?_⟩
  · unfold putc
    dsimp only
    split_ifs
    · exact (send_spec env (h.of_config h1) 13).1.trans h1
    · exact h1
  · unfold putc expand at *
    rw [hexp]
    dsimp only
    by_cases hc : c = 10
    · subst hc
      cases hs : (send env 10 u).1 with
      | false =>
        rw [hs, if_neg Bool.false_ne_true, List.append_nil] at h2
        refine ⟨[], by simpa using h2, List.nil_sublist _, fun hr => ?_⟩
        rw [h3 hr] at hs
        cases hs
      | true =>
        rw [hs, if_pos rfl] at h2
        obtain ⟨_, h5, h6⟩ := send_spec env (h.of_config h1) 13
        rw [if_pos (by decide), if_pos rfl, h5, h2, List.append_assoc]
        refine ⟨_, rfl, ?_, fun hr => ?_⟩
        · cases (send env 13 (send env 10 u).2).1 with
          | true => exact List.Sublist.refl _
          | false => exact (List.nil_sublist _).cons_cons 10
        · rw [h6 hr]
          rfl
    · rw [if_neg (by simp [hc]), if_neg hc, h2]
      refine ⟨_, rfl, ?_, fun hr => ?_⟩
      · cases (send env c u).1 with
        | true => exact List.Sublist.refl _
        | false => exact List.nil_sublist _
      · rw [h3 hr]
        rfl

theorem Sent.append {cs cs' : List UInt8} (h : Sent env cs u u') (h' : Sent env cs' u' u'') :
    Sent env (cs ++ cs') u u'' := by
  obtain ⟨s, hs, hsub, hr⟩ := h.wire
  obtain ⟨s', hs', hsub', hr'⟩ := h'.wire
  refine ⟨h'.config.trans h.config, s ++ s', ?_, ?_, fun hresp => ?_⟩
  · rw [hs', hs, List.append_assoc]
  · rw [List.flatMap_append]
    exact hsub.append hsub'
  · rw [List.flatMap_append, hr hresp, hr' hresp]

variable (env) in
/-- **Text.** -/
theorem sent_text : ∀ (cs : List UInt8) {u : Uart}, Open u →
    Sent env cs u (cs.foldl (kernelPutc env true) u) := by
  intro cs
  induction cs with
  | nil =>
    intro u _
    exact ⟨rfl, [], (List.append_nil _).symm, List.Sublist.refl _, fun _ => rfl⟩
  | cons c cs ih =>
    intro u h
    have hc := putc_spec env h c
    exact hc.append (ih (h.of_config hc.config))

theorem puts_eq {m : Mem} (initialized : Bool) : ∀ {cs : List UInt8} {fuel s : ℕ} {u : Uart},
    HoldsString m s cs → 0 ∉ cs → cs.length < fuel →
    puts env initialized m fuel s u = some (cs.foldl (kernelPutc env initialized) u) := by
  intro cs
  induction cs with
  | nil =>
    intro fuel s u h _ hf
    obtain ⟨fuel, rfl⟩ := Nat.exists_eq_succ_of_ne_zero (Nat.ne_of_gt hf)
    rw [puts, if_pos h.1]
    rfl
  | cons c cs ih =>
    intro fuel s u h h0 hf
    obtain ⟨fuel, rfl⟩ := Nat.exists_eq_succ_of_ne_zero (Nat.ne_of_gt (Nat.zero_lt_of_lt hf))
    rw [List.length_cons] at hf
    rw [List.mem_cons, not_or] at h0
    obtain ⟨hc, h⟩ := h
    rw [puts, hc, if_neg (Ne.symm h0.1)]
    exact ih h h0.2 (Nat.succ_lt_succ_iff.1 hf)

/-! ## Initialisation -/

variable (env) in
/-- The registers are set while nothing waits, and both buffers are empty then. -/
theorem setup_spec (h : u.thr = none) (baud : BaudRate) : setup env baud u =
    { now := u.now + 9, ier := if u.dlab then u.ier else 0, fcr := 0xC7, lcr := 0x03, mcr := 0x10,
      dll := baud.low, dlh := baud.high, thr := none, rbr := none, line := u.line,
      lost := u.lost } := by
  obtain ⟨now, ier, fcr, lcr, mcr, dll, dlh, thr, rbr, line, lost⟩ := u
  dsimp only at h
  subst h
  unfold setup maskInterrupts
  -- whether the first write goes to the divisor latch
  cases hd : (lcr &&& 0x80 != 0) <;>
    simp [Uart.write, Uart.read, Uart.tick, Uart.shift, Uart.dlab, hd] <;>
    exact fun h => absurd h (by decide)

/-- The port in loopback mode, just set up. -/
structure Looped (u : Uart) : Prop where
  dlab : u.dlab = false
  loop : u.loop = true
  thr : u.thr = none
  rbr : u.rbr = none

variable (env) in
/-- The test byte is written at once, since nothing waits. -/
theorem putc_looped (h : Looped u) : ∃ u', putc env 65 u = u' ∧ u'.config = u.config ∧
    u'.line = u.line ∧ u'.thr = some 65 ∧ u'.rbr = none := by
  have hwait : wait (isTransmitEmpty env) timeout₀ u = (timeout₀, { u with now := u.now + 1 }) := by
    unfold timeout₀
    rw [wait, isTransmitEmpty_eq, tick_of_none h.thr]
    dsimp only
    rw [h.thr]
    rfl
  have hsend : send env 65 u = (true, { u with now := u.now + 2, thr := some 65 }) := by
    unfold send
    rw [hwait]
    dsimp only
    rw [if_neg (by decide), write_dar (u := { u with now := u.now + 1 }) h.dlab h.thr]
  refine ⟨{ u with now := u.now + 2, thr := some 65 }, ?_, rfl, rfl, rfl, h.rbr⟩
  unfold putc
  rw [hsend]
  rfl

variable (env) in
/-- The test byte comes back, or the driver gives up. -/
theorem getc_looped (hd : u.dlab = false) (hl : u.loop = true) (ht : u.thr = some 65)
    (hr : u.rbr = none) : (getc env u).2.config = u.config ∧ (getc env u).2.line = u.line ∧
      ((getc env u).1 = 65 → (getc env u).2.thr = none) ∧
      ((getc env u).2.thr = none ∨ (getc env u).2.thr = some 65) ∧
      (Responsive env → (getc env u).1 = 65) := by
  obtain ⟨hpass, _, hready⟩ :=
    wait_spec (p := fun u => u.rbr.isSome) (isReceiveReady_eq env) timeout₀ u
  have hresp : Responsive env → (wait (isReceiveReady env) timeout₀ u).1 ≠ 0 := by
    refine fun h => wait_ready (p := fun u => u.rbr.isSome) (isReceiveReady_eq env)
      (Q := fun u => u.loop = true ∧ u.thr = some 65) (fun u hQ hs => ?_) (fun u hQ => ?_)
      timeout₀ u ⟨hl, ht⟩ (h u.now)
    · rw [((tick_spec env u).2 hs).2 hQ.1 65 hQ.2]
      rfl
    · obtain ⟨hp, _⟩ := tick_spec env u
      rcases (hp.echo hQ.1).2 with ⟨e1, _⟩ | ⟨_, e2⟩
      · exact Or.inr ⟨(loop_of_config hp.config).trans hQ.1, e1.trans hQ.2⟩
      · rw [e2 65 hQ.2]
        exact Or.inl rfl
  have hgetc : getc env u = if (wait (isReceiveReady env) timeout₀ u).1 = 0 then
      (0, (wait (isReceiveReady env) timeout₀ u).2)
      else (wait (isReceiveReady env) timeout₀ u).2.read env .dar := rfl
  generalize wait (isReceiveReady env) timeout₀ u = r at hpass hready hresp hgetc
  obtain ⟨hline, hecho⟩ := hpass.echo hl
  by_cases h0 : r.1 = 0
  · rw [if_pos h0] at hgetc
    rw [hgetc]
    have hthr : r.2.thr = none ∨ r.2.thr = some 65 := by
      rcases hecho with ⟨e1, _⟩ | ⟨e1, _⟩
      · exact Or.inr (e1.trans ht)
      · exact Or.inl e1
    exact ⟨hpass.config, hline, fun h => absurd h (show ¬ (0 : UInt8) = 65 by decide), hthr,
      fun h => absurd h0 (hresp h)⟩
  · have hsome := hready h0
    have hback : r.2.thr = none ∧ r.2.rbr = some 65 := by
      rcases hecho with ⟨_, e2⟩ | ⟨e1, e2⟩
      · rw [e2, hr] at hsome
        cases hsome
      · exact ⟨e1, e2 65 ht⟩
    have hread : r.2.read env .dar = (65, { r.2 with now := r.2.now + 1, rbr := none }) := by
      unfold Uart.read
      rw [tick_of_none hback.1]
      dsimp only
      rw [show ({ r.2 with now := r.2.now + 1 } : Uart).dlab = r.2.dlab from rfl,
        dlab_of_config hpass.config, hd, hback.2]
      rfl
    rw [if_neg h0, hread] at hgetc
    rw [hgetc]
    exact ⟨hpass.config, hline, fun _ => hback.1, Or.inl hback.1, fun _ => rfl⟩

/-- The port as `init` leaves it, before it prints. -/
structure Ready (baud : BaudRate) (u₀ u : Uart) : Prop where
  lcr : u.lcr = 0x03
  mcr : u.mcr = 0x0F
  dll : u.dll = baud.low
  dlh : u.dlh = baud.high
  line : u.line = u₀.line
  lost : u.lost = u₀.lost

theorem Ready.open (h : Ready baud u₀ u) : Open u :=
  ⟨by unfold Uart.dlab; rw [h.lcr]; decide, by unfold Uart.loop; rw [h.mcr]; decide⟩

/-- A port that failed the test gets nothing. -/
theorem foldl_uninitialized (cs : List UInt8) (u : Uart) :
    cs.foldl (kernelPutc env false) u = u := by
  induction cs generalizing u with
  | nil => rfl
  | cons c cs ih => exact ih u

/-- What `init` has left of a port at which nothing waited, before it prints. -/
structure Tested (env : UartEnv) (baud : BaudRate) (u₀ : Uart) (ok : Bool) (u : Uart) : Prop where
  absent : (portExists env u₀).1 = false → ok = false ∧ u = u₀.tick env
  ready : (portExists env u₀).1 = true → Ready baud u₀ u
  passed : ok = true → u.thr = none
  /-- The test byte is not on the line, but it may wait for it. -/
  failed : ok = false → u.line = u₀.line ∧ (u.thr = none ∨ u.thr = some 65)
  responsive : (portExists env u₀).1 = true → Responsive env → ok = true

theorem Tested.ready_of_ok {ok : Bool} (h : Tested env baud u₀ ok u) (hok : ok = true) :
    Ready baud u₀ u := by
  refine h.ready (Bool.eq_true_of_not_eq_false fun hthere => ?_)
  rw [(h.absent hthere).1] at hok
  cases hok

variable (env) in
/-- **Initialisation** of a port at which nothing waits. -/
theorem init_spec (h : u.thr = none) (baud : BaudRate) (report : Bool → List UInt8) :
    ∃ ok u', init env baud report false u = (ok, (report ok).foldl (kernelPutc env ok) u') ∧
      Tested env baud u ok u' := by
  have hthere : u.tick env = { u with now := u.now + 1 } := tick_of_none h
  cases hx : (portExists env u).1 with
  | false =>
    refine ⟨false, u.tick env, ?_, fun _ => ⟨rfl, rfl⟩, fun e => ?_, fun e => ?_, fun _ => ?_,
      fun e => ?_⟩
    · unfold init
      rw [exists_eq, hx, foldl_uninitialized]
      rfl
    · rw [hx] at e
      cases e
    · cases e
    · rw [hthere]
      exact ⟨rfl, Or.inl h⟩
    · rw [hx] at e
      cases e
  | true =>
    have hsetup := setup_spec env (u := { u with now := u.now + 1 }) h baud
    generalize hu₁ : setup env baud { u with now := u.now + 1 } = u₁ at hsetup
    have hlooped : Looped u₁ := by
      rw [hsetup]
      refine ⟨?_, ?_, rfl, rfl⟩
      · show ((0x03 : UInt8) &&& 0x80 != 0) = false
        decide
      · show ((0x10 : UInt8) &&& 0x10 != 0) = true
        decide
    obtain ⟨u₂, hput, hc₂, hline₂, ht₂, hr₂⟩ := putc_looped env hlooped
    obtain ⟨hc₃, hline₃, hthr₃, hwait₃, hresp⟩ := getc_looped env
      ((dlab_of_config hc₂).trans hlooped.dlab) ((loop_of_config hc₂).trans hlooped.loop) ht₂ hr₂
    have hc := hc₃.trans hc₂
    have hloop₃ : (getc env u₂).2.loop = true := (loop_of_config hc).trans hlooped.loop
    obtain ⟨hp, _⟩ := tick_spec env (getc env u₂).2
    obtain ⟨hecho, hthr⟩ := hp.echo hloop₃
    have hline : ((getc env u₂).2.write env .mcr 0x0F).line = u.line := by
      rw [show ((getc env u₂).2.write env .mcr 0x0F).line = ((getc env u₂).2.tick env).line from rfl,
        hecho, hline₃, hline₂, hsetup]
    refine ⟨(getc env u₂).1 == 65, (getc env u₂).2.write env .mcr 0x0F, ?_, fun e => ?_, fun _ => ?_,
      fun hok => ?_, fun _ => ⟨hline, ?_⟩, fun _ hr => beq_iff_eq.2 (hresp hr)⟩
    · unfold init
      rw [exists_eq, hx, hthere]
      dsimp only
      rw [if_neg (by decide), hu₁, hput]
    · rw [hx] at e
      cases e
    · have hconf := hp.config.trans hc
      refine ⟨?_, rfl, ?_, ?_, hline, ?_⟩
      · rw [show ((getc env u₂).2.write env .mcr 0x0F).lcr = ((getc env u₂).2.tick env).lcr from rfl,
          lcr_of_config hconf, hsetup]
      · rw [show ((getc env u₂).2.write env .mcr 0x0F).dll = ((getc env u₂).2.tick env).dll from rfl,
          dll_of_config hconf, hsetup]
      · rw [show ((getc env u₂).2.write env .mcr 0x0F).dlh = ((getc env u₂).2.tick env).dlh from rfl,
          dlh_of_config hconf, hsetup]
      · rw [show ((getc env u₂).2.write env .mcr 0x0F).lost = ((getc env u₂).2.tick env).lost from rfl,
          lost_of_config hconf, hsetup]
    · exact (hp.idle (hthr₃ (beq_iff_eq.1 hok))).1
    · show ((getc env u₂).2.tick env).thr = none ∨ ((getc env u₂).2.tick env).thr = some 65
      rcases hthr with ⟨e, _⟩ | ⟨e, _⟩
      · rw [e]
        exact hwait₃
      · exact Or.inl e

/-! ## A session -/

/-- Texts in memory, printed one after the other. -/
def putsAll (env : UartEnv) (initialized : Bool) (fuel : ℕ) :
    List (Mem × ℕ) → Uart → Option Uart
  | [], u => some u
  | (m, s) :: texts, u => (puts env initialized m fuel s u).bind (putsAll env initialized fuel texts)

theorem putsAll_eq (initialized : Bool) {fuel : ℕ} : ∀ {texts : List (Mem × ℕ)}
    {strings : List CString} {u : Uart},
    List.Forall₂ (fun x t => HoldsString x.1 x.2 t.bytes ∧ t.bytes.length < fuel) texts strings →
    putsAll env initialized fuel texts u =
      some ((strings.flatMap CString.bytes).foldl (kernelPutc env initialized) u) := by
  intro texts strings u h
  induction h generalizing u with
  | nil => rfl
  | @cons x t texts strings hx _ ih =>
    obtain ⟨m, s⟩ := x
    rw [putsAll, puts_eq initialized hx.1 t.noNul hx.2, Option.bind_some, ih, List.flatMap_cons,
      List.foldl_append]

/-- What a port is like after texts were printed. -/
structure Session (env : UartEnv) (u₀ u : Uart) (cs : List UInt8) : Prop where
  /-- No byte was written over. -/
  lost : u.lost = u₀.lost
  /-- The bytes on the line and the one that waits come from the text, in order, none twice. -/
  order : ∃ s, u.wire = u₀.line ++ s ∧ s.Sublist (cs.flatMap expand)
  /-- On a line that takes every byte in time, all of them. -/
  all : Responsive env → u.wire = u₀.line ++ cs.flatMap expand

theorem Ready.session (h : Ready baud u₀ u) (hthr : u.thr = none) (cs : List UInt8) :
    Session env u₀ (cs.foldl (kernelPutc env true) u) cs := by
  obtain ⟨hc, s, hs, hsub, hr⟩ := sent_text env cs h.open
  have hwire : u.wire = u₀.line := by
    unfold Uart.wire
    rw [hthr, h.line]
    exact List.append_nil _
  rw [hwire] at hs
  exact ⟨(lost_of_config hc).trans h.lost, ⟨s, hs, hsub⟩, fun hresp => by rw [hs, hr hresp]⟩

/-- **A session.** Whatever the line does, the driver sets the port up and then prints texts; a port
that passes the test delivers. On the line of one that fails there is nothing new, and nothing waits
for it but perhaps the test byte. A port that is not there is only read. -/
theorem serial_session (env : UartEnv) (u₀ : Uart) (h : u₀.thr = none) (baud : BaudRate)
    (report : Bool → List UInt8) (texts : List (Mem × ℕ)) (strings : List CString) (fuel : ℕ)
    (htexts : List.Forall₂ (fun x t => HoldsString x.1 x.2 t.bytes ∧ t.bytes.length < fuel)
      texts strings) :
    ∃ ok u₁ u, init env baud report false u₀ = (ok, u₁) ∧ putsAll env ok fuel texts u₁ = some u ∧
      ((portExists env u₀).1 = false → ok = false ∧ u = u₀.tick env) ∧
      ((portExists env u₀).1 = true →
        (u₁.lcr, u₁.mcr, u₁.dlh, u₁.dll) = (0x03, 0x0F, baud.high, baud.low) ∧
        (Responsive env → ok = true)) ∧
      (ok = false → u = u₁ ∧ u.line = u₀.line ∧ (u.thr = none ∨ u.thr = some 65)) ∧
      (ok = true → Session env u₀ u (report true ++ strings.flatMap CString.bytes)) := by
  obtain ⟨ok, u', hinit, htested⟩ := init_spec env h baud report
  refine ⟨ok, _, _, hinit, putsAll_eq ok htexts, fun hx => ?_, fun hx => ⟨?_, htested.responsive hx⟩,
    fun hok => ?_, fun hok => ?_⟩
  · obtain ⟨rfl, rfl⟩ := htested.absent hx
    rw [foldl_uninitialized, foldl_uninitialized]
    exact ⟨rfl, rfl⟩
  · have hready := htested.ready hx
    cases ok with
    | false =>
      rw [foldl_uninitialized, hready.lcr, hready.mcr, hready.dll, hready.dlh]
    | true =>
      have hc := (sent_text env (report true) hready.open).config
      rw [lcr_of_config hc, mcr_of_config hc, dll_of_config hc, dlh_of_config hc, hready.lcr,
        hready.mcr, hready.dll, hready.dlh]
  · subst hok
    rw [foldl_uninitialized, foldl_uninitialized]
    exact ⟨rfl, htested.failed rfl⟩
  · subst hok
    rw [← List.foldl_append]
    exact (htested.ready_of_ok rfl).session (htested.passed rfl) _

end

/-- A line that takes every byte at once. -/
def eager : UartEnv := ⟨fun _ => true, fun _ => 0, fun _ => 0⟩

def reset : Uart := ⟨0, 0, 0, 0, 0, 0, 0, none, none, [], 0⟩

/-- Two characters, the second a line feed. -/
def sampleText : CString := ⟨[72, 10], by decide⟩

def sampleTextMem : Mem := fun a => sampleText.bytes.getD a 0

theorem serial_session_sample : ∃ u₁ u, init eager baud115200 (fun _ => []) false reset =
    (true, u₁) ∧ putsAll eager true 3 [(sampleTextMem, 0)] u₁ = some u ∧ u.wire = [72, 10, 13] := by
  have hr : Responsive eager := fun n => ⟨0, by decide, rfl⟩
  obtain ⟨ok, u₁, u, hinit, hputs, _, hthere, _, hsession⟩ :=
    serial_session eager reset rfl baud115200 (fun _ => []) [(sampleTextMem, 0)] [sampleText] 3
      (.cons ⟨by decide, by decide⟩ .nil)
  obtain ⟨_, hok⟩ := hthere (exists_of_none eager reset rfl)
  have htrue := hok hr
  subst htrue
  exact ⟨u₁, u, hinit, hputs, (hsession rfl).all hr⟩

end Serial

end Ospp
