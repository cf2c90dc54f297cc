import Ospp.Klib.Convert
import Ospp.Lib.Traced

/-!
# Formatted output

`klibcpp/printf_impl.cpp`: `_vprintf`, which reads a format character by character and hands
characters to a sink. Here the sink leaves the memory with the format and the string arguments
alone; sinks that write to memory come with `OutputSink`. Its own array `buf`, of 64 characters, is a
memory of its own: what is written behind it falls on the stack, and after such a conversion nothing
is said. The argument list is a sequence of words, of which a `double` takes two.

The trace of a run has the reads of the format, the writes to `buf` and the characters put out.
-/

namespace Ospp

/-- What `_vprintf` does that can be seen from outside, and its writes to `buf`. -/
inductive PrintfEvent where
  | format (addr : ℕ)
  | putc (c : UInt8)
  | buf (i : ℕ)
  deriving DecidableEq

abbrev Printf (α : Type) := Traced PrintfEvent Halt α

/-! ## Strings -/

def putc (c : UInt8) : Printf Unit := Traced.emit (.putc c)

/-- `put_padding`: nothing for a negative number. -/
def putPadding (sym : UInt8) : ℕ → Printf Unit
  | 0 => pure ()
  | padding + 1 => do
    putc sym
    putPadding sym padding

/-- `while (*str) out.putc(out.ctx, *str++)`. A pointer that has gone over `2 ^ 32` characters is
back at its start. -/
def putChars (rd : ℕ → UInt8) : ℕ → ℕ → Printf Unit
  | 0, _ => Traced.lift (.error .diverged)
  | fuel + 1, str =>
    if rd str ≠ 0 then do
      putc (rd str)
      putChars rd fuel (str + 1)
    else pure ()

/-- The padding of a string of length `len`. -/
def padding (width len : Int32) : Int32 := if len < width then width - len else 0

/-- `put_string`. The argument is what stands behind the pointer, or `none` for a null pointer. -/
def putString (str : Option (ℕ → UInt8)) (width : Int32) (padRight : Bool) (sym : UInt8) :
    Printf Unit := do
  let rd := str.getD fun i => (ascii "(null)").getD i 0
  let len ← Traced.lift (strlen rd 0)
  let padding := padding width len.toInt32
  if !padRight then putPadding sym padding.toInt.toNat
  putChars rd 4294967296 0
  if padRight then putPadding 32 padding.toInt.toNat

/-! ## Directives -/

/-- The flags, the width and the precision of a directive. -/
structure Spec where
  padRight : Bool
  sym : UInt8
  width : Int32
  precision : Int32
  deriving DecidableEq

/-- Read a character of the format. -/
def peek (m : Mem) (format : ℕ) : Printf UInt8 := do
  Traced.emit (.format format)
  return m.read8 format

/-- `'0' <= c && c <= '9'`. -/
def isDigit (c : UInt8) : Bool := 48 ≤ c && c ≤ 57

/-- A digit at the end of a number. -/
def pushDigit (n : Int32) (c : UInt8) : Int32 := n * 10 + (charInt c - 48)

/-- The loop that reads a width or a precision: the number, and where it ends. -/
def parseNumber (m : Mem) : ℕ → ℕ → Int32 → Printf (Int32 × ℕ)
  | 0, _, _ => Traced.lift (.error .diverged)
  | fuel + 1, format, n => do
    let c ← peek m format
    if isDigit c then parseNumber m fuel (format + 1) (pushDigit n c) else return (n, format)

/-- The width and the precision, after the flags. -/
def parseWidths (m : Mem) (fuel : ℕ) (padRight : Bool) (sym : UInt8) (format : ℕ) :
    Printf (Spec × ℕ) := do
  let (width, format) ← parseNumber m fuel format 0
  let c ← peek m format
  if c = 46 then do
    let (precision, format) ← parseNumber m fuel (format + 1) 0
    return (⟨padRight, sym, width, precision⟩, format)
  else return (⟨padRight, sym, width, -1⟩, format)

/-- From the character after `%` to the one that names the conversion. -/
def parseSpec (m : Mem) (fuel format : ℕ) : Printf (Spec × ℕ) := do
  let c ← peek m format
  let (padRight, format) := if c = 45 then (true, format + 1) else (false, format)
  let c ← peek m format
  let (sym, format) := if c = 48 ∨ c = 32 then (c, format + 1) else (32, format)
  parseWidths m fuel padRight sym format

/-- The cases of the `switch`. -/
inductive Conversion where
  | d | u | x | p | s | c | f
  deriving DecidableEq

def Conversion.ofChar (c : UInt8) : Option Conversion :=
  if c = 'd'.toUInt8 then some .d
  else if c = 'u'.toUInt8 then some .u
  else if c = 'x'.toUInt8 then some .x
  else if c = 'p'.toUInt8 then some .p
  else if c = 's'.toUInt8 then some .s
  else if c = 'c'.toUInt8 then some .c
  else if c = 'f'.toUInt8 then some .f
  else none

/-- The words of the argument list that a conversion takes. -/
def Conversion.words : Conversion → ℕ
  | .f => 2
  | _ => 1

section Run

variable (U : FloatUnit) (m : Mem) (va : ℕ → UInt32)

/-- `precision == -1 ? 6 : precision`, as `ftoa` takes it. -/
def Spec.prec (d : Spec) : UInt32 := (if d.precision = -1 then 6 else d.precision).toUInt32

/-- What a conversion writes to `buf`; its argument is word `args` of the list. -/
def Conversion.fill (d : Spec) (args : ℕ) (b : Buf) : Conversion → Buf
  | .d => itoa (va args).toInt32 0 b
  | .u => utoa (va args) 0 b
  | .x => htoa (va args) 0 b
  | .p => htoa (va args) 2 ((b.put 0 '0'.toUInt8).put 1 'x'.toUInt8)
  | .s => b
  | .c => (b.put 0 (va args).toUInt8).put 1 0
  | .f => ftoa U (U.ofDouble (va args) (va (args + 1))) 0 d.prec b

/-- The string that a conversion puts out: the one its argument points to, or `buf`. -/
def Conversion.source (args : ℕ) (buf : Mem) : Conversion → Option (ℕ → UInt8)
  | .s => if va args = 0 then none else some fun i => m.read8 ((va args).toNat + i)
  | _ => some buf.read8

/-- `char buf[64]`. -/
def bufSize : ℕ := 64

/-- Write to `buf`. -/
def scratch (f : Buf → Buf) (buf : Mem) : Printf Mem :=
  let b := f ⟨buf, []⟩
  ⟨b.written.reverse.map .buf,
    if b.written.all (· < bufSize) then .ok b.mem else .error (.corrupt "buf")⟩

/-- The `switch`: the arguments and the array after it. -/
def convert (c : UInt8) (d : Spec) (args : ℕ) (buf : Mem) : Printf (ℕ × Mem) :=
  match Conversion.ofChar c with
  | some cv => do
    let buf ← scratch (cv.fill U va d args) buf
    putString (cv.source m va args buf) d.width d.padRight d.sym
    return (args + cv.words, buf)
  | none => do
    putc 37
    putc c
    return (args, buf)

/-- A directive, from the character after `%` on: where it ends, and the arguments and the array
after it. -/
def directive (fuel format args : ℕ) (buf : Mem) : Printf (ℕ × ℕ × Mem) := do
  let (d, format) ← parseSpec m fuel format
  let c ← peek m format
  let (args, buf) ← convert U m va c d args buf
  return (format + 1, args, buf)

/-- `_vprintf`. The first argument bounds the rounds of its loops over the format. -/
def vprintf : ℕ → ℕ → ℕ → Mem → Printf Unit
  | 0, _, _, _ => Traced.lift (.error .diverged)
  | fuel + 1, format, args, buf => do
    let c ← peek m format
    if c = 0 then pure ()
    else if c ≠ 37 then do
      putc c
      vprintf fuel (format + 1) args buf
    else do
      let c ← peek m (format + 1)
      if c = 0 then pure ()
      else if c = 37 then do
        putc c
        vprintf fuel (format + 2) args buf
      else do
        let (format, args, buf) ← directive U m va fuel (format + 1) args buf
        vprintf fuel format args buf

end Run

/-! ## What is put out -/

/-- The string that stands for a null pointer. -/
def nullText : CString := ⟨ascii "(null)", by decide⟩

/-- A string with its padding, as `put_string` computes it. -/
def padded (d : Spec) (s : List UInt8) : List UInt8 :=
  let n := (padding d.width (UInt32.ofNat s.length).toInt32).toInt.toNat
  if d.padRight then s ++ List.replicate n 32 else List.replicate n d.sym ++ s

theorem putPadding_eq (sym : UInt8) (n : ℕ) :
    putPadding sym n = ⟨(List.replicate n sym).map .putc, .ok ()⟩ := by
  induction n with
  | zero => rfl
  | succ n ih => rw [putPadding, ih]; rfl

theorem putChars_eq {rd : ℕ → UInt8} : ∀ {s : List UInt8} {fuel p : ℕ}, Spells rd p s → 0 ∉ s →
    s.length < fuel → putChars rd fuel p = ⟨s.map .putc, .ok ()⟩ := by
  intro s
  induction s with
  | nil =>
    intro fuel p hs _ hfuel
    obtain ⟨fuel, rfl⟩ := Nat.exists_eq_succ_of_ne_zero (Nat.pos_iff_ne_zero.1 hfuel)
    have hend : rd p = 0 := hs
    rw [putChars, hend, if_neg (by simp)]
    rfl
  | cons c s ih =>
    intro fuel p hs hnul hfuel
    rw [List.length_cons] at hfuel
    rw [List.mem_cons, not_or] at hnul
    obtain ⟨fuel, rfl⟩ := Nat.exists_eq_succ_of_ne_zero (show fuel ≠ 0 by omega)
    have hchar : rd p = c := hs.1
    rw [putChars, hchar, if_pos (Ne.symm hnul.1), ih hs.2 hnul.2 (by omega)]
    rfl

/-- `put_string` puts out the padded string. -/
theorem putString_eq {str : Option (ℕ → UInt8)} {s : CString} {d : Spec}
    (hs : Spells (str.getD fun i => (ascii "(null)").getD i 0) 0 s.bytes)
    (hlen : s.bytes.length < 4294967296) :
    putString str d.width d.padRight d.sym = ⟨(padded d s.bytes).map .putc, .ok ()⟩ := by
  rw [putString, strlen_eq hs hlen]
  cases hpad : d.padRight with
  | true =>
    simp only [padded, hpad, Bool.not_true, Bool.false_eq_true, if_true, if_false,
      putChars_eq hs s.noNul hlen, putPadding_eq]
    rw [List.map_append]
    rfl
  | false =>
    simp only [padded, hpad, Bool.not_false, Bool.false_eq_true, if_true, if_false,
      putChars_eq hs s.noNul hlen, putPadding_eq]
    rw [List.map_append]
    show Traced.mk _ _ = Traced.mk _ _
    congr 1
    simp [Traced.mk_bind]

/-! ## Reading the format -/

/-- The rest `s` of the format stands at `p`; its terminator has address `E`. -/
structure Cursor (m : Mem) (E p : ℕ) (s : List UInt8) : Prop where
  spells : Spells m.read8 p s
  ends : p + s.length = E

/-- Nothing but reads of the format, up to the terminator. -/
def ReadsTo (E : ℕ) (t : List PrintfEvent) : Prop := ∀ e ∈ t, ∃ a ≤ E, e = .format a

section Cursor

variable {m : Mem} {E p : ℕ} {s : List UInt8}

theorem peek_eq (m : Mem) (p : ℕ) : peek m p = ⟨[.format p], .ok (m.read8 p)⟩ := rfl

theorem Cursor.read (h : Cursor m E p s) : m.read8 p = s.headD 0 := by
  cases s with
  | nil => exact h.spells
  | cons c s => exact h.spells.1

theorem Cursor.le (h : Cursor m E p s) : p ≤ E := by have := h.ends; omega

theorem Cursor.tail (h : Cursor m E p s) (hs : s ≠ []) : Cursor m E (p + 1) s.tail := by
  cases s with
  | nil => exact absurd rfl hs
  | cons c s => exact ⟨h.spells.2, by rw [← h.ends, List.length_cons, List.tail_cons]; omega⟩

theorem ne_nil_of_headD {c : UInt8} (h : s.headD 0 = c) (hc : c ≠ 0) : s ≠ [] := by
  rintro rfl
  exact hc h.symm

theorem readsTo_nil : ReadsTo E [] := fun _ h => absurd h List.not_mem_nil

theorem ReadsTo.cons {t : List PrintfEvent} (hp : p ≤ E) (h : ReadsTo E t) :
    ReadsTo E (.format p :: t) := by
  intro e he
  obtain rfl | he := List.mem_cons.1 he
  · exact ⟨p, hp, rfl⟩
  · exact h e he

theorem ReadsTo.append {t t' : List PrintfEvent} (h : ReadsTo E t) (h' : ReadsTo E t') :
    ReadsTo E (t ++ t') := by
  intro e he
  obtain he | he := List.mem_append.1 he
  · exact h e he
  · exact h' e he

/-- The loop over a number, on the characters of the format. -/
theorem parseNumber_eq : ∀ {s : List UInt8} {fuel p : ℕ} {n : Int32}, Cursor m E p s →
    s.length < fuel → ∃ t q,
      parseNumber m fuel p n = ⟨t, .ok ((s.takeWhile isDigit).foldl pushDigit n, q)⟩ ∧
      Cursor m E q (s.dropWhile isDigit) ∧ ReadsTo E t := by
  intro s
  induction s with
  | nil =>
    intro fuel p n h hfuel
    obtain ⟨fuel, rfl⟩ := Nat.exists_eq_succ_of_ne_zero (Nat.pos_iff_ne_zero.1 hfuel)
    refine ⟨[.format p], p, ?_, h, readsTo_nil.cons h.le⟩
    rw [parseNumber, peek_eq, h.read]
    rfl
  | cons c s ih =>
    intro fuel p n h hfuel
    rw [List.length_cons] at hfuel
    obtain ⟨fuel, rfl⟩ := Nat.exists_eq_succ_of_ne_zero (show fuel ≠ 0 by omega)
    have hread : m.read8 p = c := h.read
    rw [parseNumber, peek_eq, hread, Traced.mk_bind]
    cases hc : isDigit c with
    | true =>
      obtain ⟨t, q, heq, hq, ht⟩ := ih (n := pushDigit n c) (h.tail (List.cons_ne_nil c s))
        (show s.length < fuel by omega)
      refine ⟨.format p :: t, q, ?_, ?_, ht.cons h.le⟩
      · rw [if_pos rfl, heq, List.takeWhile_cons_of_pos hc]
        rfl
      · rw [List.dropWhile_cons_of_pos hc]
        exact hq
    | false =>
      have hneg : ¬ isDigit c = true := by rw [hc]; simp
      refine ⟨[.format p], p, ?_, ?_, readsTo_nil.cons h.le⟩
      · rw [if_neg (by simp), List.takeWhile_cons_of_neg hneg]
        rfl
      · rw [List.dropWhile_cons_of_neg hneg]
        exact h

/-- The width and the precision at the start of the characters, and what follows. -/
def readWidths (padRight : Bool) (sym : UInt8) (s : List UInt8) : Spec × List UInt8 :=
  let width := (s.takeWhile isDigit).foldl pushDigit 0
  let s := s.dropWhile isDigit
  if s.headD 0 = 46 then
    (⟨padRight, sym, width, (s.tail.takeWhile isDigit).foldl pushDigit 0⟩,
      s.tail.dropWhile isDigit)
  else (⟨padRight, sym, width, -1⟩, s)

/-- A directive up to the character that names the conversion, and what follows. -/
def readSpec (s : List UInt8) : Spec × List UInt8 :=
  let (padRight, s) := if s.headD 0 = 45 then (true, s.tail) else (false, s)
  let (sym, s) := if s.headD 0 = 48 ∨ s.headD 0 = 32 then (s.headD 0, s.tail) else (32, s)
  readWidths padRight sym s

theorem parseWidths_eq {fuel : ℕ} (padRight : Bool) (sym : UInt8) (h : Cursor m E p s)
    (hfuel : s.length < fuel) : ∃ t q,
      parseWidths m fuel padRight sym p = ⟨t, .ok ((readWidths padRight sym s).1, q)⟩ ∧
      Cursor m E q (readWidths padRight sym s).2 ∧ ReadsTo E t := by
  obtain ⟨t, q, heq, hq, ht⟩ := parseNumber_eq (n := 0) h hfuel
  obtain ⟨s', hs'⟩ : ∃ s', s' = s.dropWhile isDigit := ⟨_, rfl⟩
  rw [← hs'] at hq
  rw [parseWidths, heq, Traced.mk_bind]
  simp only [peek_eq, Traced.mk_bind, hq.read, readWidths, ← hs']
  by_cases hdot : s'.headD 0 = 46
  · have htail := hq.tail (ne_nil_of_headD hdot (by decide))
    have hlen : s'.tail.length < fuel := by
      have : s'.length ≤ s.length := hs' ▸ (List.dropWhile_suffix isDigit).length_le
      rw [List.length_tail]
      omega
    obtain ⟨t', q', heq', hq', ht'⟩ := parseNumber_eq (n := 0) htail hlen
    refine ⟨t ++ (.format q :: t'), q', ?_, ?_, ht.append (ht'.cons hq.le)⟩
    · rw [if_pos hdot, if_pos hdot, heq']
      simp [Traced.mk_bind]
    · rw [if_pos hdot]
      exact hq'
  · refine ⟨t ++ [.format q], q, ?_, ?_, ht.append (readsTo_nil.cons hq.le)⟩
    · rw [if_neg hdot, if_neg hdot]
      rfl
    · rw [if_neg hdot]
      exact hq

/-- The parser reads what `readSpec` says, and no further than the terminator. -/
theorem parseSpec_eq {fuel : ℕ} (h : Cursor m E p s) (hfuel : s.length < fuel) : ∃ t q,
    parseSpec m fuel p = ⟨t, .ok ((readSpec s).1, q)⟩ ∧ Cursor m E q (readSpec s).2 ∧
      ReadsTo E t := by
  -- the minus sign is there or it is not
  obtain ⟨padRight, p₁, s₁, h₁, hlen₁, hp₁, hs₁⟩ : ∃ padRight p₁ s₁, Cursor m E p₁ s₁ ∧
      s₁.length ≤ s.length ∧
      (if s.headD 0 = 45 then (true, p + 1) else (false, p)) = (padRight, p₁) ∧
      (if s.headD 0 = 45 then (true, s.tail) else (false, s)) = (padRight, s₁) := by
    by_cases hm : s.headD 0 = 45
    · exact ⟨true, p + 1, s.tail, h.tail (ne_nil_of_headD hm (by decide)), by simp,
        if_pos hm, if_pos hm⟩
    · exact ⟨false, p, s, h, le_refl _, if_neg hm, if_neg hm⟩
  -- and so with the pad character
  obtain ⟨sym, p₂, s₂, h₂, hlen₂, hp₂, hs₂⟩ : ∃ sym p₂ s₂, Cursor m E p₂ s₂ ∧
      s₂.length ≤ s.length ∧
      (if s₁.headD 0 = 48 ∨ s₁.headD 0 = 32 then (s₁.headD 0, p₁ + 1) else (32, p₁)) = (sym, p₂) ∧
      (if s₁.headD 0 = 48 ∨ s₁.headD 0 = 32 then (s₁.headD 0, s₁.tail) else (32, s₁)) =
        (sym, s₂) := by
    by_cases hm : s₁.headD 0 = 48 ∨ s₁.headD 0 = 32
    · have hne : s₁ ≠ [] := by
        obtain hm | hm := hm
        · exact ne_nil_of_headD hm (by decide)
        · exact ne_nil_of_headD hm (by decide)
      exact ⟨s₁.headD 0, p₁ + 1, s₁.tail, h₁.tail hne, by rw [List.length_tail]; omega,
        if_pos hm, if_pos hm⟩
    · exact ⟨32, p₁, s₁, h₁, hlen₁, if_neg hm, if_neg hm⟩
  obtain ⟨t, q, heq, hq, ht⟩ := parseWidths_eq padRight sym h₂ (lt_of_le_of_lt hlen₂ hfuel)
  have hspec : readSpec s = readWidths padRight sym s₂ := by
    rw [readSpec, hs₁]
    simp only [hs₂]
  refine ⟨.format p :: .format p₁ :: t, q, ?_, hspec ▸ hq, (ht.cons h₁.le).cons h.le⟩
  rw [parseSpec, peek_eq, Traced.mk_bind, h.read, hp₁, hspec]
  simp only [peek_eq, Traced.mk_bind, h₁.read, hp₂, heq]
  rfl

theorem readWidths_suffix (padRight : Bool) (sym : UInt8) (s : List UInt8) :
    (readWidths padRight sym s).2 <:+ s := by
  have hdrop := List.dropWhile_suffix (l := s) isDigit
  simp only [readWidths]
  split_ifs
  · exact ((List.dropWhile_suffix isDigit).trans (List.tail_suffix _)).trans hdrop
  · exact hdrop

/-- What follows the specification of a directive is the end of the format. -/
theorem readSpec_suffix (s : List UInt8) : (readSpec s).2 <:+ s := by
  obtain ⟨padRight, s₁, h₁, hs₁⟩ : ∃ padRight s₁,
      (if s.headD 0 = 45 then (true, s.tail) else (false, s)) = (padRight, s₁) ∧ s₁ <:+ s := by
    split_ifs
    · exact ⟨_, _, rfl, List.tail_suffix s⟩
    · exact ⟨_, _, rfl, List.suffix_refl s⟩
  obtain ⟨sym, s₂, h₂, hs₂⟩ : ∃ sym s₂,
      (if s₁.headD 0 = 48 ∨ s₁.headD 0 = 32 then (s₁.headD 0, s₁.tail) else (32, s₁)) =
        (sym, s₂) ∧ s₂ <:+ s₁ := by
    split_ifs
    · exact ⟨_, _, rfl, List.tail_suffix s₁⟩
    · exact ⟨_, _, rfl, List.suffix_refl s₁⟩
  simp only [readSpec, h₁, h₂]
  exact ((readWidths_suffix padRight sym s₂).trans hs₂).trans hs₁

end Cursor

/-! ## Steps of a run -/

section Steps

variable {U : FloatUnit} {m : Mem} {va : ℕ → UInt32} {E p args fuel : ℕ} {buf : Mem}
  {s : List UInt8} {c : UInt8} {d : Spec}

/-- A conversion stays in `buf`. -/
def Conversion.Within (U : FloatUnit) (va : ℕ → UInt32) (d : Spec) (args : ℕ) (buf : Mem)
    (cv : Conversion) : Prop := ∀ i ∈ (cv.fill U va d args ⟨buf, []⟩).written, i < bufSize

/-- A conversion that has a string to put out. -/
theorem convert_some {cv : Conversion} (hc : Conversion.ofChar c = some cv) {s : CString}
    (hs : Spells ((cv.source m va args (cv.fill U va d args ⟨buf, []⟩).mem).getD
      fun i => (ascii "(null)").getD i 0) 0 s.bytes) (hlen : s.bytes.length < 4294967296)
    (hin : cv.Within U va d args buf) :
    convert U m va c d args buf =
      ⟨(cv.fill U va d args ⟨buf, []⟩).written.reverse.map .buf ++ (padded d s.bytes).map .putc,
        .ok (args + cv.words, (cv.fill U va d args ⟨buf, []⟩).mem)⟩ := by
  have hall : (cv.fill U va d args ⟨buf, []⟩).written.all (· < bufSize) = true :=
    List.all_eq_true.2 fun i hi => decide_eq_true (hin i hi)
  simp only [convert, hc, scratch, hall, if_true, Traced.mk_bind, putString_eq hs hlen]
  simp

/-- A conversion that writes behind `buf`. -/
theorem convert_over {cv : Conversion} (hc : Conversion.ofChar c = some cv)
    (hout : ¬ cv.Within U va d args buf) : convert U m va c d args buf =
      ⟨(cv.fill U va d args ⟨buf, []⟩).written.reverse.map .buf, .error (.corrupt "buf")⟩ := by
  have hall : ¬ (cv.fill U va d args ⟨buf, []⟩).written.all (· < bufSize) = true := fun h =>
    hout fun i hi => of_decide_eq_true (List.all_eq_true.1 h i hi)
  simp only [convert, hc, scratch, if_neg hall]
  rfl

theorem convert_none (hc : Conversion.ofChar c = none) :
    convert U m va c d args buf = ⟨[.putc 37, .putc c], .ok (args, buf)⟩ := by
  simp only [convert, hc]
  rfl

variable (U va args d) in
/-- A conversion other than `s` leaves a terminator in `buf`. -/
theorem fill_end (cv : Conversion) (hs : cv ≠ .s) (b : Buf) :
    ∃ n < 4294967296, (cv.fill U va d args b).mem.read8 n = 0 := by
  have hnumeral : ∀ (base : UInt32) (p : ℕ) (n : UInt32) (b : Buf), 10 ≤ base.toNat →
      base.toNat ≤ 36 → p ≤ 2 → ∃ i < 4294967296, (uvtoa p base n b).mem.read8 i = 0 := by
    intro base p n b h10 h36 hp
    have hlen := length_numeralText_le h10 n.toNat_lt
    exact ⟨_, by omega, (spells_uvtoa (by omega) h36 p b).end⟩
  cases cv with
  | d =>
    rw [Conversion.fill, itoa_eq_utoa]
    exact hnumeral 10 0 _ _ (by decide) (by decide) (by omega)
  | u => exact hnumeral 10 0 _ _ (by decide) (by decide) (by omega)
  | x => exact hnumeral 16 0 _ _ (by decide) (by decide) (by omega)
  | p => exact hnumeral 16 2 _ _ (by decide) (by decide) (by omega)
  | s => exact absurd rfl hs
  | c => exact ⟨1, by omega, by rw [Conversion.fill, Buf.read8_put, if_pos (by decide)]⟩
  | f =>
    obtain ⟨cs, -, heq⟩ := ftoa_eq U (U.ofDouble (va args) (va (args + 1))) 0 d.prec b
    refine ⟨(0 + cs.length) % 4294967296, Nat.mod_lt _ (by omega), ?_⟩
    rw [Conversion.fill, heq]
    exact (Mem.read8_mod _ (Nat.mod_mod _ _)).trans Buf.end_puts

variable (U va args d) in
/-- There is a string to put out, as soon as there is a zero byte in memory. -/
theorem exists_source {E : ℕ} (hE : m.read8 E = 0) (cv : Conversion) (b : Buf) :
    ∃ s : CString, s.bytes.length < 4294967296 ∧
      Spells ((cv.source m va args (cv.fill U va d args b).mem).getD
        fun i => (ascii "(null)").getD i 0) 0 s.bytes := by
  by_cases hcv : cv = .s
  · subst hcv
    by_cases hnull : va args = 0
    · refine ⟨nullText, by decide, ?_⟩
      rw [Conversion.source, if_pos hnull]
      exact spells_iff.2 fun i _ => by rw [Nat.zero_add]; rfl
    · -- the zero byte is less than `2 ^ 32` bytes away
      have hzero : m.read8 ((va args).toNat + (0 + Word32.sub E (va args).toNat)) = 0 := by
        rw [← hE]
        exact Mem.read8_mod m (by unfold Word32.sub; omega)
      obtain ⟨rd, hrd⟩ : ∃ rd : ℕ → UInt8, rd = fun i => m.read8 ((va args).toNat + i) := ⟨_, rfl⟩
      rw [← congrFun hrd] at hzero
      obtain ⟨s, hlen, hs⟩ := exists_spells hzero
      refine ⟨s, lt_of_le_of_lt hlen (Word32.sub_lt _ _), ?_⟩
      rw [Conversion.source, if_neg hnull, ← hrd]
      exact hs
  · obtain ⟨n, hn, hzero⟩ := fill_end U va args d cv hcv b
    obtain ⟨s, hlen, hs⟩ := exists_spells (p := 0) (by rw [Nat.zero_add]; exact hzero)
    refine ⟨s, lt_of_le_of_lt hlen hn, ?_⟩
    cases cv with
    | s => exact absurd rfl hcv
    | _ => exact hs

variable (U va args buf d) in
/-- A conversion returns unless it leaves `buf`, and does not read the format. -/
theorem convert_returns {E : ℕ} (hE : m.read8 E = 0) (c : UInt8)
    (hin : ∀ cv, Conversion.ofChar c = some cv → cv.Within U va d args buf) : ∃ t r,
    convert U m va c d args buf = ⟨t, .ok r⟩ ∧ ∀ a, .format a ∉ t := by
  cases hc : Conversion.ofChar c with
  | none =>
    refine ⟨_, _, convert_none hc, fun a ha => ?_⟩
    simp at ha
  | some cv =>
    obtain ⟨s, hlen, hs⟩ := exists_source U va args d hE cv ⟨buf, []⟩
    refine ⟨_, _, convert_some hc hs hlen (hin cv hc), fun a ha => ?_⟩
    simp at ha

theorem vprintf_of_zero (h : m.read8 p = 0) :
    vprintf U m va (fuel + 1) p args buf = ⟨[.format p], .ok ()⟩ := by
  rw [vprintf, peek_eq, Traced.mk_bind, h, if_pos rfl]
  rfl

theorem vprintf_of_char (h0 : m.read8 p ≠ 0) (h37 : m.read8 p ≠ 37) :
    vprintf U m va (fuel + 1) p args buf =
      ((⟨[.format p, .putc (m.read8 p)], .ok ()⟩ : Printf Unit) >>= fun _ =>
        vprintf U m va fuel (p + 1) args buf) := by
  rw [vprintf, peek_eq, Traced.mk_bind, if_neg h0, if_pos h37]
  rfl

section Percent

variable (h : m.read8 p = 37)

include h

theorem vprintf_of_percent_zero (h0 : m.read8 (p + 1) = 0) :
    vprintf U m va (fuel + 1) p args buf = ⟨[.format p, .format (p + 1)], .ok ()⟩ := by
  rw [vprintf, peek_eq, Traced.mk_bind, h, if_neg (by decide), if_neg (by decide), peek_eq,
    Traced.mk_bind, h0, if_pos rfl]
  rfl

theorem vprintf_of_percent_percent (h37 : m.read8 (p + 1) = 37) :
    vprintf U m va (fuel + 1) p args buf =
      ((⟨[.format p, .format (p + 1), .putc 37], .ok ()⟩ : Printf Unit) >>= fun _ =>
        vprintf U m va fuel (p + 2) args buf) := by
  rw [vprintf, peek_eq, Traced.mk_bind, h, if_neg (by decide), if_neg (by decide), peek_eq,
    Traced.mk_bind, h37, if_neg (by decide), if_pos rfl]
  rfl

theorem vprintf_of_percent_char (h0 : m.read8 (p + 1) ≠ 0) (h37 : m.read8 (p + 1) ≠ 37) :
    vprintf U m va (fuel + 1) p args buf =
      ((⟨[.format p, .format (p + 1)], .ok ()⟩ : Printf Unit) >>= fun _ =>
        parseSpec m fuel (p + 1) >>= fun r => peek m r.2 >>= fun c =>
          convert U m va c r.1 args buf >>= fun r' =>
            vprintf U m va fuel (r.2 + 1) r'.1 r'.2) := by
  rw [vprintf, peek_eq, Traced.mk_bind, h, if_neg (by decide), if_neg (by decide), peek_eq,
    Traced.mk_bind, if_neg h0, if_neg h37, directive]
  simp only [Traced.bind_assoc]
  rfl

end Percent

theorem vprintf_end (h : Cursor m E p []) :
    vprintf U m va (fuel + 1) p args buf = ⟨[.format p], .ok ()⟩ :=
  vprintf_of_zero h.read

theorem vprintf_literal (h : Cursor m E p (c :: s)) (h0 : c ≠ 0) (h37 : c ≠ 37) :
    vprintf U m va (fuel + 1) p args buf =
      ((⟨[.format p, .putc c], .ok ()⟩ : Printf Unit) >>= fun _ =>
        vprintf U m va fuel (p + 1) args buf) := by
  have hread : m.read8 p = c := h.read
  rw [vprintf_of_char (hread ▸ h0) (hread ▸ h37), hread]

theorem vprintf_percentEnd (h : Cursor m E p [37]) :
    vprintf U m va (fuel + 1) p args buf = ⟨[.format p, .format (p + 1)], .ok ()⟩ :=
  vprintf_of_percent_zero h.read (h.tail (List.cons_ne_nil _ _)).read

theorem vprintf_escape (h : Cursor m E p (37 :: 37 :: s)) :
    vprintf U m va (fuel + 1) p args buf =
      ((⟨[.format p, .format (p + 1), .putc 37], .ok ()⟩ : Printf Unit) >>= fun _ =>
        vprintf U m va fuel (p + 2) args buf) :=
  vprintf_of_percent_percent h.read (h.tail (List.cons_ne_nil _ _)).read

variable (U va args fuel buf) in
/-- A directive converts one argument, with what `readSpec` reads. -/
theorem vprintf_directive (h : Cursor m E p (37 :: c :: s)) (h0 : c ≠ 0) (h37 : c ≠ 37)
    (hfuel : s.length + 1 < fuel) : ∃ t q, ReadsTo E t ∧ Cursor m E q (readSpec (c :: s)).2 ∧
      (parseSpec m fuel (p + 1)).result = .ok ((readSpec (c :: s)).1, q) ∧
      vprintf U m va (fuel + 1) p args buf = ((⟨t, .ok ()⟩ : Printf Unit) >>= fun _ =>
        convert U m va ((readSpec (c :: s)).2.headD 0) (readSpec (c :: s)).1 args buf >>= fun r =>
          vprintf U m va fuel (q + 1) r.1 r.2) := by
  have htail : Cursor m E (p + 1) (c :: s) := h.tail (List.cons_ne_nil _ _)
  have hnext : m.read8 (p + 1) = c := htail.read
  obtain ⟨t, q, heq, hq, ht⟩ := parseSpec_eq htail
    (show (c :: s).length < fuel by rw [List.length_cons]; omega)
  refine ⟨.format p :: .format (p + 1) :: (t ++ [.format q]), q,
    ((ht.append (readsTo_nil.cons hq.le)).cons htail.le).cons h.le, hq, by rw [heq], ?_⟩
  rw [vprintf_of_percent_char h.read (hnext ▸ h0) (hnext ▸ h37), heq]
  simp only [peek_eq, Traced.mk_bind, hq.read, List.cons_append, List.nil_append,
    List.append_assoc]

end Steps

end Ospp
