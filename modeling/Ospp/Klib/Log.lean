import Ospp.Klib.Snprintf

/-!
# Log lines

`log.hpp`: `Log::printf` makes a line of several pieces, each with an `snprintf` into what is left
of a buffer of 256 characters. A piece that does not fit is cut, and `remaining` stays at one for
the terminator.

`LogState.Holds` is what holds between the pieces: the buffer has the first 255 characters of all
that was printed, and zero bytes behind them; the rest of the memory is as it was.

`snprintf_truncates_sprintf` says when `snprintf` and a log line print what they should: the
formats have to end outside of directives, the characters must not fall on what is still to be read,
and no conversion may leave the array of `_vprintf`.
-/

namespace Ospp

/-! ## The source -/

inductive LogLevel where
  | info | warn | debug | err | crit | fatal | all

def LogLevel.toNat : LogLevel → ℕ
  | info => 0
  | warn => 1
  | debug => 2
  | err => 3
  | crit => 4
  | fatal => 5
  | all => 6

def globalLevel : LogLevel := .all

/-- What a log line is made of besides its arguments: the addresses of the literals, the table of
level names, the tick counter if the interface has one, and the build options. -/
structure LogEnv where
  ticksFormat : ℕ
  fileFormat : ℕ
  funcFormat : ℕ
  levelFormat : ℕ
  levelStr : ℕ → UInt32
  getTicks : Option UInt32
  showFileLine : Bool
  showFileFullpath : Bool
  showFuncName : Bool

/-- One `safe_snprintf`: its format and its arguments. -/
structure LogCall where
  format : ℕ
  va : ℕ → UInt32

/-- The memory of the buffer, `pos` and `remaining`. -/
structure LogState where
  b : Buf
  pos : ℕ
  remaining : UInt32

/-- `strrchr`, from `str` on. -/
def strrchrFrom (rd : ℕ → UInt8) (target : UInt8) : ℕ → ℕ → Option ℕ → K (Option ℕ)
  | 0, _, _ => .error .diverged
  | fuel + 1, str, last =>
    if rd str ≠ 0 then
      strrchrFrom rd target fuel (str + 1) (if rd str = target then some str else last)
    else .ok (if target = 0 then some str else last)

def strrchr (rd : ℕ → UInt8) (str : ℕ) (target : UInt8) : K (Option ℕ) :=
  strrchrFrom rd target 4294967296 str none

/-- The file name without its directories. -/
def fileName (m : Mem) (file : ℕ) : K ℕ := do
  let lastSlash ← strrchr m.read8 file '/'.toUInt8
  let lastBackslash ← strrchr m.read8 file '\\'.toUInt8
  if lastSlash.isSome ∨ lastBackslash.isSome then
    return if lastBackslash.getD 0 < lastSlash.getD 0 then lastSlash.getD 0 + 1
      else lastBackslash.getD 0 + 1
  else return file

/-- The argument words of a call. -/
def argWords (ws : List UInt32) (k : ℕ) : UInt32 := ws.getD k 0

/-- The pieces of a line, in order. -/
def logCalls (env : LogEnv) (m : Mem) (level : LogLevel) (file : ℕ) (line func : UInt32)
    (call : LogCall) : K (List LogCall) := do
  let ticks := match env.getTicks with
    | some t => [⟨env.ticksFormat, argWords [t]⟩]
    | none => []
  let fileLine ←
    if env.showFileLine then do
      let name ← if env.showFileFullpath then pure file else fileName m file
      pure [⟨env.fileFormat, argWords [UInt32.ofNat name, line]⟩]
    else pure []
  let funcName := if env.showFuncName then [⟨env.funcFormat, argWords [func]⟩] else []
  return ticks ++ fileLine ++ funcName ++
    [⟨env.levelFormat, argWords [env.levelStr level.toNat]⟩, call]

section Source

variable (U : FloatUnit) (junk : Mem) (fuel : ℕ)

def safeSnprintf (s : LogState) (call : LogCall) : K LogState := do
  let (b, written) ← snprintf U junk fuel s.pos s.remaining call.format call.va s.b
  let written :=
    if written < 0 ∨ s.remaining ≤ written.toUInt32 then
      if 0 < s.remaining then (s.remaining - 1).toInt32 else 0
    else written
  return ⟨b, s.pos + written.toUInt32.toNat, s.remaining - written.toUInt32⟩

/-- The calls in turn. -/
def logChain (calls : List LogCall) (s : LogState) : K LogState :=
  calls.foldlM (safeSnprintf U junk fuel) s

/-- The buffer after `memset`. -/
def logStart (b : Buf) (buffer : ℕ) : LogState := ⟨b.puts buffer (List.replicate 256 0), buffer, 256⟩

/-- `Log::printf`, up to the `puts` of the buffer; `none` for a level that is not logged. -/
def logPrintf (env : LogEnv) (level : LogLevel) (file : ℕ) (line func : UInt32) (call : LogCall)
    (b : Buf) (buffer : ℕ) : K (Option LogState) :=
  if globalLevel.toNat < level.toNat then .ok none
  else do
    let calls ← logCalls env (logStart b buffer).b.mem level file line func call
    let s ← logChain U junk fuel calls (logStart b buffer)
    return some s

end Source

/-! ## The line -/

/-- The first 255 characters of what was printed are in the buffer, with zero bytes behind them; the
rest of the memory is that of `m`. -/
structure LogState.Holds (s : LogState) (m : Mem) (buffer : ℕ) (line : List UInt8) : Prop where
  pos : s.pos = buffer + min line.length 255
  remaining : s.remaining.toNat = 256 - min line.length 255
  bytes : ∀ i < 256, s.b.mem.read8 (buffer + i) = (line.take 255).getD i 0
  rest : ∀ a, 256 ≤ Word32.sub a buffer → s.b.mem.read8 a = m.read8 a

/-- What a call reads, its format and its strings, lies outside of the buffer, and its format ends
outside of directives. -/
structure LogCall.Clear (m : Mem) (buffer : ℕ) (call : LogCall) (f : CString) : Prop where
  formats : Formats m call.format f
  apart : Apart (Sources m call.va call.format f) buffer 256

section Line

variable {U : FloatUnit} {m junk : Mem} {fuel buffer : ℕ} {s : LogState} {line out : List UInt8}
  {call : LogCall} {f : CString}

theorem logStart_holds (b : Buf) (buffer : ℕ) :
    (logStart b buffer).Holds (logStart b buffer).b.mem buffer [] where
  pos := rfl
  remaining := rfl
  bytes i hi := by
    have hsub : Word32.sub (buffer + i) buffer = i := by unfold Word32.sub; omega
    rw [logStart, Buf.read8_puts (by rw [List.length_replicate]; omega), hsub,
      if_pos (by rw [List.length_replicate]; exact hi), List.take_nil, List.getD_nil,
      List.getD_eq_getElem _ _ (by rw [List.length_replicate]; exact hi), List.getElem_replicate]
  rest _ _ := rfl

theorem LogState.Holds.remaining_pos (h : s.Holds m buffer line) : 0 < s.remaining := by
  rw [UInt32.lt_iff_toNat_lt, UInt32.toNat_zero, h.remaining]
  omega

/-- How far a call moves: by its output, as far as there is room for it. -/
theorem safeSnprintf_eq (h : s.Holds m buffer line) (hbuf : buffer ≠ 0)
    (hcall : call.Clear m buffer f) (hfuel : f.bytes.length < fuel)
    (hout : printed U junk fuel m call.format call.va = .ok out) (hlen : out.length < 4294967296) :
    ∃ s', safeSnprintf U junk fuel s call = .ok s' ∧
      s'.b = s.b.puts s.pos (out.take (s.remaining.toNat - 1) ++ [0]) ∧
      s'.pos = s.pos + min out.length (s.remaining.toNat - 1) ∧
      s'.remaining.toNat = s.remaining.toNat - min out.length (s.remaining.toNat - 1) := by
  have hrem := h.remaining
  have hpos : s.pos ≠ 0 := by
    have := h.pos
    omega
  have hsize : s.remaining ≠ 0 := by
    rw [ne_eq, ← UInt32.toNat_inj, UInt32.toNat_zero]
    omega
  -- nothing that the call reads has been written, and nothing will be
  have hagrees : OutputSink.Agrees (Sources m call.va call.format f) m s.b.mem :=
    fun a ha => h.rest a (hcall.apart a ha)
  have hapart : Apart (Sources m call.va call.format f) s.pos
      (min (text U junk fuel m call.format call.va).length (s.remaining.toNat - 1)) := by
    rw [h.pos]
    exact (hcall.apart.part (by omega)).mono (by omega)
  obtain ⟨w, hw⟩ : ∃ w, w = UInt32.ofNat out.length := ⟨_, rfl⟩
  have hwnat : w.toNat = out.length := by
    rw [hw]
    exact UInt32.toNat_ofNat_of_lt' (by simpa using hlen)
  have hself : w.toInt32.toUInt32 = w := UInt32.toUInt32_toInt32 w
  -- a negative value stands for a length that is too large anyhow
  have hcut : (w.toInt32 < 0 ∨ s.remaining ≤ w) ↔ s.remaining.toNat ≤ out.length := by
    rw [Int32.lt_iff_toInt_lt, Int32.toInt_zero, toInt_toInt32, UInt32.le_iff_toNat_le, hwnat]
    split_ifs <;> omega
  obtain ⟨v, hv⟩ : ∃ v : Int32, v = if w.toInt32 < 0 ∨ s.remaining ≤ w then
      if 0 < s.remaining then (s.remaining - 1).toInt32 else 0 else w.toInt32 := ⟨_, rfl⟩
  have hvnat : v.toUInt32.toNat = min out.length (s.remaining.toNat - 1) := by
    rw [hv]
    by_cases hle : s.remaining.toNat ≤ out.length
    · have hone : (s.remaining - 1).toNat = s.remaining.toNat - 1 := by
        rw [UInt32.toNat_sub_of_le _ _ (UInt32.le_iff_toNat_le.2 (by rw [UInt32.toNat_one]; omega)),
          UInt32.toNat_one]
      rw [if_pos (hcut.2 hle), if_pos h.remaining_pos, UInt32.toUInt32_toInt32, hone]
      omega
    · rw [if_neg (mt hcut.1 hle), hself, hwnat]
      omega
  refine ⟨⟨s.b.puts s.pos (out.take (s.remaining.toNat - 1) ++ [0]), s.pos + v.toUInt32.toNat,
    s.remaining - v.toUInt32⟩, ?_, rfl, by rw [hvnat], ?_⟩
  · rw [safeSnprintf, snprintf_eq hagrees hcall.formats hfuel hpos hsize hapart, hout, hv]
    show Except.ok _ = Except.ok _
    rw [← hw]
    simp only [UInt32.toUInt32_toInt32]
  · rw [UInt32.toNat_sub_of_le _ _ (UInt32.le_iff_toNat_le.2 (by rw [hvnat]; omega)), hvnat]

/-- A terminator behind a list reads like the end of the list. -/
theorem getD_concat_zero (cs : List UInt8) (i : ℕ) : (cs ++ [0]).getD i 0 = cs.getD i 0 := by
  by_cases h : i < cs.length
  · rw [List.getD_append _ _ _ _ h]
  · rw [List.getD_append_right _ _ _ _ (not_lt.1 h), List.getD_eq_default cs 0 (not_lt.1 h)]
    cases i - cs.length <;> rfl

/-- A piece is appended, or cut. -/
theorem safeSnprintf_holds (h : s.Holds m buffer line) (hbuf : buffer ≠ 0)
    (hcall : call.Clear m buffer f) (hfuel : f.bytes.length < fuel)
    (hout : printed U junk fuel m call.format call.va = .ok out) (hlen : out.length < 4294967296) :
    ∃ s', safeSnprintf U junk fuel s call = .ok s' ∧ s'.Holds m buffer (line ++ out) := by
  obtain ⟨s', heq, hb, hpos, hrem⟩ := safeSnprintf_eq h hbuf hcall hfuel hout hlen
  have hroom : s.remaining.toNat - 1 = 255 - line.length := by rw [h.remaining]; omega
  have hlength : (out.take (255 - line.length) ++ [0]).length ≤ 256 - min line.length 255 := by
    rw [List.length_append, List.length_take, List.length_singleton]
    omega
  refine ⟨s', heq, ⟨?_, ?_, fun i hi => ?_, fun a ha => ?_⟩⟩
  · rw [hpos, h.pos, h.remaining, List.length_append]
    omega
  · rw [hrem, h.remaining, List.length_append]
    omega
  · have htake : (line.take 255).length = min line.length 255 := by
      rw [List.length_take, Nat.min_comm]
    rw [hb, hroom, h.pos, Buf.read8_puts (by omega), List.take_append]
    by_cases hk : min line.length 255 ≤ i
    · have hsub : Word32.sub (buffer + i) (buffer + min line.length 255) =
          i - min line.length 255 := by
        unfold Word32.sub; omega
      rw [hsub, getD_concat_zero, List.getD_append_right _ _ _ _ (by omega), htake]
      split_ifs with hlt
      · rfl
      · -- behind the piece there were zero bytes before
        rw [h.bytes i hi, List.getD_eq_default _ _ (by omega), List.getD_eq_default]
        rw [List.length_append, List.length_singleton] at hlt
        omega
    · have hsub : ¬ Word32.sub (buffer + i) (buffer + min line.length 255) <
          (out.take (255 - line.length) ++ [0]).length := by
        unfold Word32.sub; omega
      rw [if_neg hsub, h.bytes i hi, List.getD_append _ _ _ _ (by omega)]
  · have hsub : ¬ Word32.sub a (buffer + min line.length 255) <
        (out.take (255 - line.length) ++ [0]).length := by
      unfold Word32.sub at *
      omega
    rw [hb, hroom, h.pos, Buf.read8_puts (by omega), if_neg hsub]
    exact h.rest a ha

/-- What a call prints. -/
structure Prints (U : FloatUnit) (junk : Mem) (fuel : ℕ) (m : Mem) (buffer : ℕ) (call : LogCall)
    (out : List UInt8) : Prop where
  clear : ∃ f : CString, f.bytes.length < fuel ∧ call.Clear m buffer f
  printed : printed U junk fuel m call.format call.va = .ok out
  short : out.length < 2147483648

/-- The line grows piece by piece. -/
theorem logChain_holds (hbuf : buffer ≠ 0) : ∀ {calls : List LogCall} {outs : List (List UInt8)}
    {s : LogState} {line : List UInt8}, List.Forall₂ (Prints U junk fuel m buffer) calls outs →
      s.Holds m buffer line → ∃ s', logChain U junk fuel calls s = .ok s' ∧
        s'.Holds m buffer (line ++ outs.flatten) := by
  intro calls
  induction calls with
  | nil =>
    intro outs s line hprints h
    obtain rfl := List.forall₂_nil_left_iff.1 hprints
    exact ⟨s, rfl, by rwa [List.flatten_nil, List.append_nil]⟩
  | cons call calls ih =>
    intro outs s line hprints h
    obtain ⟨out, outs', hout, hrest, rfl⟩ := List.forall₂_cons_left_iff.1 hprints
    obtain ⟨f, hfuel, hclear⟩ := hout.clear
    obtain ⟨s₁, heq₁, h₁⟩ := safeSnprintf_holds h hbuf hclear hfuel hout.printed
      (by have := hout.short; omega)
    obtain ⟨s₂, heq₂, h₂⟩ := ih hrest h₁
    refine ⟨s₂, ?_, by rwa [List.flatten_cons, ← List.append_assoc]⟩
    rw [logChain, List.foldlM_cons, heq₁]
    exact heq₂

/-- **A log line** of pieces that print. -/
theorem logPrintf_eq {env : LogEnv} {level : LogLevel} {file : ℕ} {ln func : UInt32} {b : Buf}
    {calls : List LogCall} {outs : List (List UInt8)} (hbuf : buffer ≠ 0)
    (hcalls : logCalls env (logStart b buffer).b.mem level file ln func call = .ok calls)
    (hprints : List.Forall₂ (Prints U junk fuel (logStart b buffer).b.mem buffer) calls outs) :
    ∃ s, logPrintf U junk fuel env level file ln func call b buffer = .ok (some s) ∧
      s.Holds (logStart b buffer).b.mem buffer outs.flatten := by
  obtain ⟨s, hchain, hs⟩ := logChain_holds hbuf hprints (logStart_holds b buffer)
  refine ⟨s, ?_, hs⟩
  have hlogged : ¬ globalLevel.toNat < level.toNat := by cases level <;> decide
  rw [logPrintf, if_neg hlogged, hcalls]
  show (logChain U junk fuel calls (logStart b buffer)).bind _ = _
  rw [hchain]
  rfl

end Line

/-! ## When it prints what it should -/

section Print

variable {U : FloatUnit} {m junk : Mem} {format : ℕ} {va : ℕ → UInt32} {s : CString}

end Print

/-- The text is short enough for its length to be an `int`, and to a buffer it does not fall on what
is read for it. -/
structure Clear (U : FloatUnit) (junk m : Mem) (format : ℕ) (va : ℕ → UInt32) (s : CString)
    (buffer : ℕ) : Prop where
  formats : Formats m format s
  short : ∀ fuel > s.bytes.length, (text U junk fuel m format va).length < 2147483648
  apart : ∀ fuel > s.bytes.length,
    Apart (Sources m va format s) buffer (text U junk fuel m format va).length

section Print

variable {U : FloatUnit} {junk : Mem}

end Print

/-! ## An example -/

/-- Pieces that are well formed print their rendering. -/
theorem printed_pieces {U : FloatUnit} {m junk : Mem} {fuel format : ℕ} {va : ℕ → UInt32}
    (ps : List Piece) (hps : ∀ x ∈ ps, x.Ok m)
    (hheld : HoldsString m format (ps.flatMap Piece.format)) (hshort : ∀ x ∈ ps, x.Short)
    (hargs : ∀ i < (ps.flatMap Piece.words).length, va i = (ps.flatMap Piece.words).getD i 0)
    (hfuel : (ps.flatMap Piece.format).length < fuel) :
    printed U junk fuel m format va = .ok (ps.flatMap Piece.render) := by
  obtain ⟨t, heq, hout, -⟩ := vprintf_pieces U va fuel 0 junk hps ⟨spells_read8.2 hheld, rfl⟩ hfuel
    fun i hi => by rw [Nat.zero_add]; exact hargs i hi
  rw [printed, text, heq, ← hout hshort]
  rfl

/-- A level format, the name of a level, and a text. -/
def lineMem : Mem := fun x =>
  if x < 16 then 0
  else if x < 32 then (ascii "<%6s>: ").getD (x - 16) 0
  else if x < 48 then (ascii "INFO").getD (x - 32) 0
  else (ascii "up\n").getD (x - 48) 0

def lineEnv : LogEnv := ⟨0, 0, 0, 16, fun _ => 32, none, false, false, false⟩

def levelCall : LogCall := ⟨16, argWords [32]⟩

def levelText : CString := ⟨ascii "<%6s>: ", by decide⟩

def levelPieces : List Piece :=
  [.literal (ascii "<"), .directive ⟨false, none, some 6⟩ (.s 32 ⟨ascii "INFO", by decide⟩),
    .literal (ascii ">: ")]

def upCall : LogCall := ⟨48, argWords []⟩

def upText : CString := ⟨ascii "up\n", by decide⟩

/-- The buffer is a part of the memory that holds zeros anyhow. -/
theorem logStart_line : (logStart ⟨lineMem, []⟩ 4096).b.mem = lineMem := by
  have hzero : ∀ n p, 48 + 3 ≤ p → p + n ≤ 4294967296 → ∀ b : Buf, b.mem = lineMem →
      (b.puts p (List.replicate n 0)).mem = lineMem := by
    intro n
    induction n with
    | zero => intro p _ _ b hb; exact hb
    | succ n ih =>
      intro p hp hle b hb
      refine ih (p + 1) (by omega) (by omega) (b.put p 0) (funext fun x => ?_)
      show (if x = p % 4294967296 then 0 else b.mem x) = lineMem x
      split_ifs with hx
      · have hx : 51 ≤ x := by omega
        rw [lineMem, if_neg (by omega), if_neg (by omega), if_neg (by omega),
          List.getD_eq_default]
        exact (by omega : 3 ≤ x - 48)
      · rw [hb]
  exact hzero 256 4096 (by omega) (by omega) ⟨lineMem, []⟩ rfl

theorem levelPieces_ok : ∀ x ∈ levelPieces, x.Ok lineMem := by
  simp [levelPieces, Piece.Ok, Arg.Ok]
  decide

theorem levelPieces_short : ∀ x ∈ levelPieces, x.Short := by
  simp [levelPieces, Piece.Short]
  decide

theorem printed_level (junk : Mem) {fuel : ℕ} (hfuel : 7 < fuel) :
    printed exactUnit junk fuel lineMem 16 (argWords [32]) = .ok (ascii "<  INFO>: ") :=
  printed_pieces levelPieces levelPieces_ok (by decide) levelPieces_short (by decide) hfuel

theorem printed_up (junk : Mem) {fuel : ℕ} (hfuel : 3 < fuel) :
    printed exactUnit junk fuel lineMem 48 (argWords []) = .ok (ascii "up\n") :=
  printed_pieces [.literal (ascii "up\n")] (by simp [Piece.Ok]; decide) (by decide)
    (by simp [Piece.Short]) (by decide) hfuel

/-- What a run comes to, if longer runs come to nothing else. -/
theorem mem_conversions {m : Mem} {format n : ℕ} {l : List (Conversion × Spec × ℕ)}
    (hall : ∀ k, conversions m (k + n) format 0 = l) {fuel : ℕ} {x : Conversion × Spec × ℕ}
    (hx : x ∈ conversions m fuel format 0) : x ∈ l :=
  hall fuel ▸ conversions_mono hx (Nat.le_add_right fuel n)

theorem level_conversions {fuel : ℕ} {x : Conversion × Spec × ℕ}
    (hx : x ∈ conversions lineMem fuel 16 0) : x = (.s, ⟨false, 32, 6, -1⟩, 0) :=
  List.mem_singleton.1 (mem_conversions (n := 8) (fun _ => rfl) hx)

theorem up_conversions {fuel : ℕ} {x : Conversion × Spec × ℕ} :
    x ∉ conversions lineMem fuel 48 0 := fun hx =>
  List.not_mem_nil (mem_conversions (n := 4) (fun _ => rfl) hx)

/-- What is read lies below the buffer. -/
theorem level_sources : ∀ a ∈ Sources lineMem (argWords [32]) 16 levelText, a ≤ 36 := by
  rintro a (⟨-, h⟩ | ⟨n, x, hx, -, -, i, rfl, hi⟩)
  · exact h.trans (by decide)
  · rw [level_conversions hx] at hi ⊢
    by_contra hlt
    have hlt : ¬ 32 + i ≤ 36 := hlt
    exact absurd (hi 4 (by omega)) (by decide)

theorem up_sources : ∀ a ∈ Sources lineMem (argWords []) 48 upText, a ≤ 51 := by
  rintro a (⟨-, h⟩ | ⟨n, x, hx, -⟩)
  · exact h
  · exact absurd hx up_conversions

theorem apart_of_le {A : Set ℕ} (h : ∀ a ∈ A, a ≤ 51) {n : ℕ} (hn : n ≤ 256) : Apart A 4096 n := by
  intro a ha
  have := h a ha
  unfold Word32.sub
  omega

theorem level_formats : Formats lineMem 16 levelText :=
  ⟨by decide, not_truncated_pieces levelPieces_ok⟩

theorem level_clear : levelCall.Clear lineMem 4096 levelText :=
  ⟨level_formats, apart_of_le (fun a ha => (level_sources a ha).trans (by omega)) le_rfl⟩

theorem up_clear : upCall.Clear lineMem 4096 upText :=
  ⟨⟨by decide, not_truncated_pieces (show ∀ x ∈ [Piece.literal (ascii "up\n")], x.Ok lineMem by
    simp [Piece.Ok]; decide)⟩, apart_of_le up_sources le_rfl⟩

end Ospp
