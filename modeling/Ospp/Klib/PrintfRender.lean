import Ospp.Klib.PrintfBounds

/-!
# What formatted output says

A format made of pieces: literal texts, escapes, and directives with an optional minus sign, an
optional pad character, an optional width and one of the letters `d u x p s c`. Each directive
comes with its argument. `Piece.format` writes a piece down, `Piece.render` says what is to be
printed for it.

`_vprintf` prints the rendering, except that a string of more than `2 ^ 31` characters can get
padding it must not get: `put_string` takes its length for an `int`. `vprintf_renders_iff` says
when.
-/

namespace Ospp

open Numeral

/-! ## Pieces -/

def Conversion.letter : Conversion → UInt8
  | d => 'd'.toUInt8
  | u => 'u'.toUInt8
  | x => 'x'.toUInt8
  | p => 'p'.toUInt8
  | s => 's'.toUInt8
  | c => 'c'.toUInt8
  | f => 'f'.toUInt8

/-- An argument, with the letter it is printed by. A string is given with its address. -/
inductive Arg where
  | d (n : Int32)
  | u (n : UInt32)
  | x (n : UInt32)
  | p (n : UInt32)
  | s (addr : UInt32) (text : CString)
  | c (n : UInt32)

namespace Arg

def conversion : Arg → Conversion
  | d _ => .d
  | u _ => .u
  | x _ => .x
  | p _ => .p
  | s _ _ => .s
  | c _ => .c

def letter (a : Arg) : UInt8 := a.conversion.letter

/-- The word of the argument list. -/
def word : Arg → UInt32
  | d n => n.toUInt32
  | u n | x n | p n | c n => n
  | s addr _ => addr

/-- The string to be printed. For an integer it is the one that `itoa` leaves, by
`holds_itoa`. -/
def text : Arg → List UInt8
  | d n => numeralText 10 n.toUInt32.toNat
  | u n => numeralText 10 n.toNat
  | x n => numeralText 16 n.toNat
  | p n => 48 :: 'x'.toUInt8 :: numeralText 16 n.toNat
  | s addr text => if addr = 0 then nullText.bytes else text.bytes
  | c n => [n.toUInt8]

/-- The string is where its address says, and a character is not the terminator. -/
def Ok (m : Mem) : Arg → Prop
  | s addr text => addr ≠ 0 → HoldsString m addr.toNat text.bytes
  | c n => n.toUInt8 ≠ 0
  | _ => True

end Arg

/-- The flags and the width of a directive. -/
structure Flags where
  minus : Bool
  /-- The pad character: `'0'` if true, a blank if false. -/
  pad : Option Bool
  width : Option ℕ

namespace Flags

def sym (f : Flags) : UInt8 := if f.pad = some true then 48 else 32

/-- The width as it is written. -/
def widthText (f : Flags) : List UInt8 :=
  match f.width with
  | some w => numeralText 10 w
  | none => []

def format (f : Flags) : List UInt8 :=
  (if f.minus then [45] else []) ++ (if f.pad.isSome then [f.sym] else []) ++ f.widthText

/-- A text padded to the width: on the right with blanks after a minus sign, otherwise on the left
with the pad character. -/
def fill (f : Flags) (text : List UInt8) : List UInt8 :=
  let n := f.width.getD 0 - text.length
  if f.minus then text ++ List.replicate n 32 else List.replicate n f.sym ++ text

end Flags

inductive Piece where
  | literal (text : List UInt8)
  | escape
  | directive (flags : Flags) (arg : Arg)

namespace Piece

def format : Piece → List UInt8
  | literal text => text
  | escape => [37, 37]
  | directive flags arg => 37 :: (flags.format ++ [arg.letter])

def render : Piece → List UInt8
  | literal text => text
  | escape => [37]
  | directive flags arg => flags.fill arg.text

/-- The argument words. -/
def words : Piece → List UInt32
  | directive _ arg => [arg.word]
  | _ => []

/-- The piece is well formed: no percent sign and no terminator in a literal, and a width that is
an `int`. -/
def Ok (m : Mem) : Piece → Prop
  | literal text => 0 ∉ text ∧ 37 ∉ text
  | escape => True
  | directive flags arg => flags.width.getD 0 < 2147483648 ∧ arg.Ok m

/-- The text of the piece is not so long that the sign of its length matters. -/
def Short : Piece → Prop
  | directive flags arg => arg.text.length ≤ 2147483648 + flags.width.getD 0
  | _ => True

end Piece

/-- The characters put out. -/
def output (t : List PrintfEvent) : List UInt8 :=
  t.filterMap fun
    | .putc c => some c
    | _ => none

/-! ## Padding -/

theorem toInt_toInt32 (u : UInt32) : u.toInt32.toInt =
    if u.toNat < 2147483648 then (u.toNat : ℤ) else u.toNat - 4294967296 := by
  have hcond := BitVec.toInt_eq_toNat_cond u.toBitVec
  have hnat : u.toNat = u.toBitVec.toNat := rfl
  have hint : u.toInt32.toInt = u.toBitVec.toInt := rfl
  rw [hint, hcond, hnat]
  split_ifs <;> omega

/-- The padding of `put_string`, in numbers. -/
theorem toNat_padding {w len : ℕ} (hw : w < 2147483648) (hlen : len < 4294967296) :
    (padding (Int32.ofNat w) (UInt32.ofNat len).toInt32).toInt.toNat =
      if len < 2147483648 then w - len
      else if w + 4294967296 - len < 2147483648 then w + 4294967296 - len else 0 := by
  have hwidth : (Int32.ofNat w).toInt = w := Int32.toInt_ofNat_of_lt hw
  have hlength : (UInt32.ofNat len).toInt32.toInt =
      if len < 2147483648 then (len : ℤ) else len - 4294967296 := by
    rw [toInt_toInt32, UInt32.toNat_ofNat_of_lt' hlen]
  rw [padding]
  by_cases hshort : len < 2147483648
  · rw [if_pos hshort] at hlength ⊢
    by_cases hlt : len < w
    · rw [if_pos (by rw [Int32.lt_iff_toInt_lt, hwidth, hlength]; omega), Int32.toInt_sub, hwidth,
        hlength, Int.bmod_def]
      split_ifs <;> omega
    · rw [if_neg (by rw [Int32.lt_iff_toInt_lt, hwidth, hlength]; omega), Int32.toInt_zero]
      omega
  · rw [if_neg hshort] at hlength ⊢
    rw [if_pos (by rw [Int32.lt_iff_toInt_lt, hwidth, hlength]; omega), Int32.toInt_sub, hwidth,
      hlength, Int.bmod_def]
    split_ifs <;> omega

/-- A specification that has been read says what the flags say. A pad character does not matter
without a width. -/
structure Flags.Says (f : Flags) (d : Spec) : Prop where
  minus : d.padRight = f.minus
  width : d.width = Int32.ofNat (f.width.getD 0)
  sym : f.width.getD 0 ≠ 0 → d.sym = f.sym

section Padding

variable {f : Flags} {d : Spec} {text : List UInt8} (hd : f.Says d)
  (hw : f.width.getD 0 < 2147483648) (hlen : text.length < 4294967296)

include hd hw hlen

/-- A text that is not too long is padded as the flags say. -/
theorem padded_eq_fill (h : text.length ≤ 2147483648 + f.width.getD 0) :
    padded d text = f.fill text := by
  have hn : (padding d.width (UInt32.ofNat text.length).toInt32).toInt.toNat =
      f.width.getD 0 - text.length := by
    rw [hd.width, toNat_padding hw hlen]
    split_ifs <;> omega
  rw [padded, Flags.fill]
  simp only [hn, hd.minus]
  by_cases hzero : f.width.getD 0 = 0
  · simp [hzero]
  · rw [hd.sym hzero]

/-- One that is too long gets more. -/
theorem length_fill_lt (h : 2147483648 + f.width.getD 0 < text.length) :
    (f.fill text).length < (padded d text).length := by
  have hn : (padding d.width (UInt32.ofNat text.length).toInt32).toInt.toNat =
      f.width.getD 0 + 4294967296 - text.length := by
    rw [hd.width, toNat_padding hw hlen]
    split_ifs <;> omega
  have hzero : f.width.getD 0 - text.length = 0 := by omega
  rw [padded, Flags.fill]
  simp only [hn, hzero, List.replicate_zero, List.append_nil, List.nil_append, ite_self]
  split_ifs
  · rw [List.length_append, List.length_replicate]
    omega
  · rw [List.length_append, List.length_replicate]
    omega

end Padding

/-! ## Reading a directive back -/

theorem isDigit_digitChar : ∀ d < 10, isDigit (digitChar d) = true := by decide

theorem pushDigit_digitChar (n : Int32) {d : ℕ} (h : d < 10) :
    pushDigit n (digitChar d) = n * 10 + Int32.ofNat d := by
  have hd : ∀ d < 10, charInt (digitChar d) - 48 = Int32.ofNat d := by decide
  rw [pushDigit, hd d h]

/-- The loop over a number computes the value of its digits. -/
theorem foldl_pushDigit {ds : List ℕ} (h : ∀ d ∈ ds, d < 10) :
    (ds.map digitChar).foldl pushDigit 0 = Int32.ofNat (value 10 ds) := by
  induction ds using List.reverseRecOn with
  | nil => rfl
  | append_singleton ds d ih =>
    rw [List.map_append, List.foldl_append, ih fun d hd => h d (List.mem_append_left _ hd),
      value_concat, Int32.ofNat_add, Int32.ofNat_mul]
    exact pushDigit_digitChar _ (h d (List.mem_append_right _ (List.mem_singleton_self d)))

/-- A letter that ends a directive. -/
structure Ends (l : UInt8) : Prop where
  digit : isDigit l = false
  minus : l ≠ 45
  blank : l ≠ 32
  dot : l ≠ 46

section Read

variable {f : Flags} {l : UInt8} {s : List UInt8} (hl : Ends l)

include hl

theorem readWidths_widthText (padRight : Bool) (sym : UInt8) :
    readWidths padRight sym (f.widthText ++ l :: s) =
      (⟨padRight, sym, Int32.ofNat (f.width.getD 0), -1⟩, l :: s) := by
  obtain ⟨ds, hds, htext, hvalue⟩ : ∃ ds : List ℕ, (∀ d ∈ ds, d < 10) ∧
      f.widthText = ds.map digitChar ∧ value 10 ds = f.width.getD 0 := by
    unfold Flags.widthText
    cases f.width with
    | none => exact ⟨[], by simp, rfl, rfl⟩
    | some w =>
      exact ⟨numeral 10 w, fun d hd => numeral_lt (by omega) hd, rfl,
        (isNumeral_numeral (by omega) w).value⟩
  have hall : ∀ c ∈ ds.map digitChar, isDigit c = true := by
    simp only [List.mem_map]
    rintro c ⟨d, hd, rfl⟩
    exact isDigit_digitChar d (hds d hd)
  have hneg : ¬ isDigit l = true := by rw [hl.digit]; simp
  rw [readWidths, htext, List.takeWhile_append_of_pos hall, List.dropWhile_append_of_pos hall,
    List.takeWhile_cons_of_neg hneg, List.dropWhile_cons_of_neg hneg, List.append_nil,
    foldl_pushDigit hds, hvalue, List.headD_cons, if_neg hl.dot]

omit hl in
theorem headD_widthText_some {w : ℕ} (h : f.width = some w) :
    ∃ d < 10, (d = 0 → w = 0) ∧ (f.widthText ++ l :: s).headD 0 = digitChar d := by
  have hnum := isNumeral_numeral (b := 10) (by omega) w
  obtain ⟨d, ds, hcons⟩ := List.exists_cons_of_ne_nil hnum.nonempty
  refine ⟨d, hnum.digit d (by rw [hcons]; exact List.mem_cons_self), ?_, ?_⟩
  · rintro rfl
    have hone := hnum.lead (by rw [hcons]; rfl)
    rw [← hnum.value, hone]
    rfl
  · rw [Flags.widthText, h]
    simp only [numeralText, hcons, List.map_cons, List.cons_append, List.headD_cons]

/-- Neither a minus sign nor a blank begins what follows the flags; a zero does only where the width
is zero. -/
theorem headD_widthText : (f.widthText ++ l :: s).headD 0 ≠ 45 ∧
    (f.widthText ++ l :: s).headD 0 ≠ 32 ∧
      ((f.widthText ++ l :: s).headD 0 = 48 → f.width = some 0) := by
  cases hwidth : f.width with
  | none =>
    rw [Flags.widthText, hwidth]
    refine ⟨hl.minus, hl.blank, fun h => absurd (hl.digit) ?_⟩
    rw [List.nil_append, List.headD_cons] at h
    rw [h]
    decide
  | some w =>
    obtain ⟨d, hd, hzero, hhead⟩ := headD_widthText_some (l := l) (s := s) hwidth
    have hchar : ∀ d < 10, digitChar d ≠ 45 ∧ digitChar d ≠ 32 ∧ (digitChar d = 48 → d = 0) := by
      decide
    obtain ⟨h45, h32, h48⟩ := hchar d hd
    rw [hhead]
    exact ⟨h45, h32, fun h => by rw [hzero (h48 h)]⟩

/-- The pad character is read back, or taken from the width. -/
theorem readSpec_pad (padRight : Bool) : ∃ d : Spec, d.padRight = padRight ∧
    d.width = Int32.ofNat (f.width.getD 0) ∧ (f.width.getD 0 ≠ 0 → d.sym = f.sym) ∧
    (let s' := (if f.pad.isSome then [f.sym] else []) ++ (f.widthText ++ l :: s)
      let (sym, s') :=
        if s'.headD 0 = 48 ∨ s'.headD 0 = 32 then (s'.headD 0, s'.tail) else (32, s')
      readWidths padRight sym s') = (d, l :: s) := by
  obtain ⟨-, h32, h48⟩ := headD_widthText (f := f) (s := s) hl
  cases hpad : f.pad with
  | some b =>
    have hsym : f.sym = 48 ∨ f.sym = 32 := by
      unfold Flags.sym
      split_ifs
      · exact Or.inl rfl
      · exact Or.inr rfl
    refine ⟨⟨padRight, f.sym, Int32.ofNat (f.width.getD 0), -1⟩, rfl, rfl, fun _ => rfl, ?_⟩
    simp only [Option.isSome_some, if_true, List.cons_append, List.nil_append, List.headD_cons,
      if_pos hsym, List.tail_cons, readWidths_widthText hl]
  | none =>
    have hsym : f.sym = 32 := by rw [Flags.sym, hpad, if_neg (by simp)]
    by_cases hzero : (f.widthText ++ l :: s).headD 0 = 48
    · -- the zero of the width is taken for the pad character
      have hwidth := h48 hzero
      have htext : f.widthText = [48] := by
        rw [Flags.widthText, hwidth]
        simp only [numeralText, numeral_zero (by omega : 1 < 10)]
        rfl
      have hread := readWidths_widthText (f := ⟨false, none, none⟩) (s := s) hl padRight 48
      refine ⟨⟨padRight, 48, 0, -1⟩, rfl, by rw [hwidth]; rfl, by rw [hwidth]; simp, ?_⟩
      simp only [Option.isSome_none, Bool.false_eq_true, if_false, List.nil_append, htext,
        List.cons_append, List.headD_cons, true_or, if_true, List.tail_cons]
      exact hread
    · refine ⟨⟨padRight, 32, Int32.ofNat (f.width.getD 0), -1⟩, rfl, rfl, fun _ => hsym.symm, ?_⟩
      simp only [Option.isSome_none, Bool.false_eq_true, if_false, List.nil_append, hzero, h32,
        or_self, readWidths_widthText hl]

/-- A directive reads back as it was written. -/
theorem readSpec_format : ∃ d, f.Says d ∧ readSpec (f.format ++ l :: s) = (d, l :: s) := by
  obtain ⟨h45, -, -⟩ := headD_widthText (f := f) (s := s) hl
  obtain ⟨d, hminus, hwidth, hsym, hread⟩ := readSpec_pad (f := f) (s := s) hl f.minus
  refine ⟨d, ⟨hminus, hwidth, hsym⟩, ?_⟩
  rw [← hread, Flags.format, List.append_assoc, List.append_assoc, readSpec]
  cases f.minus with
  | true => simp only [if_true, List.cons_append, List.nil_append, List.headD_cons, List.tail_cons]
  | false =>
    have hhead : ((if f.pad.isSome then [f.sym] else []) ++ (f.widthText ++ l :: s)).headD 0 ≠ 45 := by
      split_ifs
      · rw [List.cons_append, List.headD_cons]
        unfold Flags.sym
        split_ifs <;> decide
      · exact h45
    simp only [Bool.false_eq_true, if_false, List.nil_append, if_neg hhead]

end Read

/-! ## Converting an argument -/

section Convert

variable {U : FloatUnit} {m : Mem} {va : ℕ → UInt32} {args : ℕ} {buf : Mem} {d : Spec} {a : Arg}

theorem Conversion.ofChar_letter (cv : Conversion) : ofChar cv.letter = some cv := by
  cases cv <;> rfl

theorem Conversion.letter_ne (cv : Conversion) : cv.letter ≠ 0 ∧ cv.letter ≠ 37 := by
  cases cv <;> constructor <;> decide

theorem Conversion.ends_letter (cv : Conversion) : Ends cv.letter := by
  cases cv <;> constructor <;> decide

theorem Arg.words_conversion (a : Arg) : a.conversion.words = 1 := by
  cases a <;> rfl

/-- The text of an argument is a string. -/
theorem Arg.Ok.noNul (h : a.Ok m) : 0 ∉ a.text := by
  cases a with
  | d n => exact numeralText_noNul (by omega) (by omega)
  | u n => exact numeralText_noNul (by omega) (by omega)
  | x n => exact numeralText_noNul (by omega) (by omega)
  | p n =>
    have := numeralText_noNul (n := n.toNat) (by omega : 1 < 16) (by omega)
    simp only [Arg.text, List.mem_cons, not_or]
    exact ⟨by decide, by decide, this⟩
  | s addr text =>
    rw [Arg.text]
    split_ifs
    · exact nullText.noNul
    · exact text.noNul
  | c n => exact fun hn => h (List.mem_singleton.1 hn).symm

theorem Arg.Ok.length_lt (h : a.Ok m) : a.text.length < 4294967296 := by
  have hnumeral : ∀ base n : ℕ, 10 ≤ base → n < 4294967296 →
      (numeralText base n).length + 2 < 4294967296 := by
    intro base n hb hn
    have := length_numeralText_le hb hn
    omega
  cases a with
  | d n => exact lt_of_le_of_lt (Nat.le_add_right _ 2) (hnumeral 10 _ (le_refl _) n.toUInt32.toNat_lt)
  | u n => exact lt_of_le_of_lt (Nat.le_add_right _ 2) (hnumeral 10 _ (le_refl _) n.toNat_lt)
  | x n => exact lt_of_le_of_lt (Nat.le_add_right _ 2) (hnumeral 16 _ (by omega) n.toNat_lt)
  | p n => exact hnumeral 16 _ (by omega) n.toNat_lt
  | s addr text =>
    rw [Arg.text]
    split_ifs with hnull
    · exact (by decide : nullText.bytes.length < 4294967296)
    · exact HoldsString.length_lt (h hnull)
  | c n => exact (by omega : 1 < 4294967296)

/-- What `put_string` is given for an argument is its text. -/
theorem Arg.Ok.spells (h : a.Ok m) (hword : va args = a.word) :
    Spells ((a.conversion.source m va args (a.conversion.fill U va d args ⟨buf, []⟩).mem).getD
      fun i => (ascii "(null)").getD i 0) 0 a.text := by
  cases a with
  | d n =>
    have hn : (va args).toInt32 = n := by rw [hword]; rfl
    show Spells (itoa (va args).toInt32 0 _).mem.read8 0 _
    rw [hn]
    exact spells_read8.2 (holds_itoa n 0 _)
  | u n =>
    have hn : va args = n := hword
    show Spells (utoa (va args) 0 _).mem.read8 0 _
    rw [hn]
    exact spells_uvtoa (by decide) (by decide) 0 _
  | x n =>
    have hn : va args = n := hword
    show Spells (htoa (va args) 0 _).mem.read8 0 _
    rw [hn]
    exact spells_uvtoa (by decide) (by decide) 0 _
  | p n =>
    have hn : va args = n := hword
    have hlen : (numeralText (16 : UInt32).toNat n.toNat).length ≤ 10 :=
      length_numeralText_le (by decide) n.toNat_lt
    obtain ⟨b, hb⟩ : ∃ b, b = ((Buf.mk buf []).put 0 '0'.toUInt8).put 1 'x'.toUInt8 := ⟨_, rfl⟩
    -- the prefix stays: the digits go behind it
    have hkeep : ∀ i < 2, (htoa n 2 b).mem.read8 i = b.mem.read8 i := by
      intro i hi
      rw [htoa, read8_uvtoa (by decide) (by decide), Buf.read8_puts, if_neg]
      · rw [List.length_append, List.length_singleton]
        unfold Word32.sub
        omega
      · rw [List.length_append, List.length_singleton]
        omega
    show Spells (htoa (va args) 2 _).mem.read8 0 _
    rw [hn, ← hb]
    refine ⟨?_, ?_, spells_uvtoa (by decide) (by decide) 2 b⟩
    · rw [hkeep 0 (by omega), hb, Buf.read8_put, if_neg (by decide), Buf.read8_put,
        if_pos (by decide)]
      rfl
    · rw [hkeep 1 (by omega), hb, Buf.read8_put, if_pos (by decide)]
  | s addr text =>
    have haddr : va args = addr := hword
    simp only [Arg.conversion, Conversion.source, haddr, Arg.text]
    split_ifs with hnull
    · exact spells_iff.2 fun i _ => by rw [Nat.zero_add]; rfl
    · have hheld := spells_iff.1 (spells_read8.2 (h hnull))
      exact spells_iff.2 fun i hi => by rw [Nat.zero_add]; exact hheld i hi
  | c n =>
    have hn : va args = n := hword
    show Spells ((Buf.put _ 0 (va args).toUInt8).put 1 0).mem.read8 0 _
    rw [hn]
    refine ⟨?_, ?_⟩
    · rw [Buf.read8_put, if_neg (by decide), Buf.read8_put, if_pos (by decide)]
    · show Mem.read8 _ (0 + 1) = 0
      rw [Buf.read8_put, if_pos (by decide)]

variable (U va args buf d) in
/-- A directive converts its argument. -/
theorem convert_arg (h : a.Ok m) (hword : va args = a.word) : ∃ t buf',
    convert U m va a.letter d args buf = ⟨t, .ok (args + 1, buf')⟩ ∧ output t = padded d a.text := by
  have hspells : Spells ((a.conversion.source m va args
      (a.conversion.fill U va d args ⟨buf, []⟩).mem).getD fun i => (ascii "(null)").getD i 0) 0
      (CString.mk a.text h.noNul).bytes := h.spells hword
  have hfits : Fits U va (a.conversion, d, args) := by
    cases a <;> exact fun h => by cases h
  have hsome := convert_some a.conversion.ofChar_letter hspells h.length_lt
    ((within_iff _ d args buf).2 hfits)
  rw [a.words_conversion] at hsome
  refine ⟨_, _, hsome, ?_⟩
  simp [output, List.filterMap_append, List.filterMap_map]

end Convert

/-! ## Pieces in turn -/

section Pieces

variable {U : FloatUnit} {m : Mem} {va : ℕ → UInt32} {E : ℕ}

theorem output_append (t t' : List PrintfEvent) : output (t ++ t') = output t ++ output t' :=
  List.filterMap_append

theorem ReadsTo.output {t : List PrintfEvent} (h : ReadsTo E t) : output t = [] := by
  refine List.filterMap_eq_nil_iff.2 fun e he => ?_
  obtain ⟨a, -, rfl⟩ := h e he
  rfl

/-- No character of a directive but the first one is a percent sign. -/
theorem Flags.not_mem_format (f : Flags) {c : UInt8} (hc : ∀ d < 10, digitChar d ≠ c)
    (h45 : 45 ≠ c) (h32 : 32 ≠ c) : c ∉ f.format := by
  have hsym : c ≠ f.sym := by
    unfold Flags.sym
    split_ifs
    · exact (hc 0 (by omega)).symm
    · exact h32.symm
  have hwidth : c ∉ f.widthText := by
    unfold Flags.widthText
    cases f.width with
    | none => exact List.not_mem_nil
    | some w =>
      simp only [numeralText, List.mem_map, not_exists, not_and]
      exact fun d hd => hc d (numeral_lt (by omega) hd)
  simp only [Flags.format, List.mem_append, not_or]
  refine ⟨⟨?_, ?_⟩, hwidth⟩
  · split_ifs
    · exact fun h => h45 (List.mem_singleton.1 h).symm
    · exact List.not_mem_nil
  · split_ifs
    · exact fun h => hsym (List.mem_singleton.1 h)
    · exact List.not_mem_nil

variable (U va) in
/-- Literal text is put out as it is. -/
theorem vprintf_text (fuel args : ℕ) (buf : Mem) : ∀ {text s : List UInt8} {p : ℕ}, 0 ∉ text →
    37 ∉ text → Cursor m E p (text ++ s) → ∃ t, Cursor m E (p + text.length) s ∧
      output t = text ∧ vprintf U m va (fuel + text.length) p args buf =
        ((⟨t, .ok ()⟩ : Printf Unit) >>= fun _ =>
          vprintf U m va fuel (p + text.length) args buf) := by
  intro text
  induction text with
  | nil => intro s p _ _ h; exact ⟨[], h, rfl, rfl⟩
  | cons c text ih =>
    intro s p h0 h37 h
    rw [List.mem_cons, not_or] at h0 h37
    obtain ⟨t, hcur, hout, heq⟩ := ih h0.2 h37.2 (h.tail (List.cons_ne_nil _ _))
    rw [List.length_cons, show p + (text.length + 1) = p + 1 + text.length by omega]
    refine ⟨[.format p, .putc c] ++ t, hcur, by rw [output_append, hout]; rfl, ?_⟩
    rw [← Nat.add_assoc, vprintf_literal h (Ne.symm h0.1) (Ne.symm h37.1), heq, Traced.mk_bind,
      Traced.mk_bind, Traced.mk_bind, List.append_assoc]

/-- A format made of pieces ends outside of directives. -/
theorem not_truncated_pieces {ps : List Piece} (hps : ∀ x ∈ ps, x.Ok m) :
    ¬ Truncated (ps.flatMap Piece.format) := by
  induction ps with
  | nil => exact fun h => by cases h
  | cons x ps ih =>
    have hrest := ih fun y hy => hps y (List.mem_cons_of_mem _ hy)
    have hx := hps x List.mem_cons_self
    rw [List.flatMap_cons]
    cases x with
    | literal text =>
      have hno : 37 ∉ text := hx.2
      show ¬ Truncated (text ++ _)
      clear hx hps
      induction text with
      | nil => exact hrest
      | cons c text iht =>
        rw [List.mem_cons, not_or] at hno
        intro h
        rw [List.cons_append] at h
        exact iht hno.2 ((truncated_cons (Ne.symm hno.1)).1 h)
    | escape => exact fun h => hrest (truncated_escape.1 h)
    | directive f a =>
      obtain ⟨c, rest, hcons⟩ : ∃ c rest, f.format ++ [a.letter] = c :: rest :=
        List.exists_cons_of_ne_nil (by simp)
      have hc : c ≠ 37 := by
        have hmem : c ∈ f.format ++ [a.letter] := by rw [hcons]; exact List.mem_cons_self
        rintro rfl
        rcases List.mem_append.1 hmem with hmem | hmem
        · exact f.not_mem_format (by decide) (by decide) (by decide) hmem
        · exact a.conversion.letter_ne.2 (List.mem_singleton.1 hmem).symm
      obtain ⟨d, -, hread⟩ := readSpec_format (f := f)
        (s := ps.flatMap Piece.format) a.conversion.ends_letter
      have hformat : f.format ++ a.conversion.letter :: ps.flatMap Piece.format =
          c :: (rest ++ ps.flatMap Piece.format) := by
        rw [← List.cons_append, ← hcons, List.append_assoc, List.singleton_append]
        rfl
      rw [hformat] at hread
      intro h
      rw [Piece.format, List.cons_append, hcons, List.cons_append,
        truncated_directive hc, hread] at h
      exact h.elim (fun h => by cases h) hrest

variable (U va) in
/-- What a piece of the format does: it is put out, padded as it should be unless it is too
long. -/
theorem vprintf_piece {x : Piece} {s : List UInt8} {fuel p : ℕ} (args : ℕ) (buf : Mem) (hx : x.Ok m)
    (h : Cursor m E p (x.format ++ s)) (hfuel : (x.format ++ s).length < fuel)
    (hargs : ∀ i < x.words.length, va (args + i) = x.words.getD i 0) : ∃ t fuel' q buf',
      s.length < fuel' ∧ Cursor m E q s ∧ (x.Short → output t = x.render) ∧
        (¬ x.Short → x.render.length < (output t).length) ∧
        vprintf U m va fuel p args buf = ((⟨t, .ok ()⟩ : Printf Unit) >>= fun _ =>
          vprintf U m va fuel' q (args + x.words.length) buf') := by
  cases x with
  | literal text =>
    have h : Cursor m E p (text ++ s) := h
    have hfuel : (text ++ s).length < fuel := hfuel
    rw [List.length_append] at hfuel
    obtain ⟨k, rfl⟩ : ∃ k, fuel = k + text.length := ⟨fuel - text.length, by omega⟩
    obtain ⟨t, hcur, hout, heq⟩ := vprintf_text U va k args buf hx.1 hx.2 h
    exact ⟨t, k, _, buf, by omega, hcur, fun _ => hout, fun hs => absurd trivial hs, heq⟩
  | escape =>
    have h : Cursor m E p (37 :: 37 :: s) := h
    have hfuel : (37 :: 37 :: s : List UInt8).length < fuel := hfuel
    rw [List.length_cons, List.length_cons] at hfuel
    obtain ⟨k, rfl⟩ : ∃ k, fuel = k + 1 := ⟨fuel - 1, by omega⟩
    exact ⟨_, k, _, buf, by omega, (h.tail (List.cons_ne_nil _ _)).tail (List.cons_ne_nil _ _),
      fun _ => rfl, fun hs => absurd trivial hs, vprintf_escape h⟩
  | directive f a =>
    obtain ⟨c, rest, hcons⟩ : ∃ c rest, f.format ++ a.letter :: s = c :: rest :=
      List.exists_cons_of_ne_nil (by simp)
    have hformat : (Piece.directive f a).format ++ s = 37 :: c :: rest := by
      rw [Piece.format, List.cons_append, List.append_assoc, List.singleton_append, hcons]
    rw [hformat] at h hfuel
    rw [List.length_cons, List.length_cons] at hfuel
    obtain ⟨k, rfl⟩ : ∃ k, fuel = k + 1 := ⟨fuel - 1, by omega⟩
    -- the character after the percent sign is neither a terminator nor another percent sign
    have hchar : c ≠ 0 ∧ c ≠ 37 := by
      have hmem : c ∈ f.format ∨ c = a.letter := by
        cases hf : f.format with
        | nil =>
          rw [hf, List.nil_append, List.cons.injEq] at hcons
          exact Or.inr hcons.1.symm
        | cons c' cs =>
          rw [hf, List.cons_append, List.cons.injEq] at hcons
          exact Or.inl (by rw [← hcons.1]; exact List.mem_cons_self)
      obtain hmem | rfl := hmem
      · refine ⟨fun e => ?_, fun e => ?_⟩
        · exact f.not_mem_format (by decide) (by decide) (by decide) (e ▸ hmem)
        · exact f.not_mem_format (by decide) (by decide) (by decide) (e ▸ hmem)
      · exact a.conversion.letter_ne
    obtain ⟨d, hsays, hread⟩ := readSpec_format (f := f) (s := s) a.conversion.ends_letter
    have hread : readSpec (c :: rest) = (d, a.letter :: s) := by rw [← hcons]; exact hread
    obtain ⟨t, q, ht, hq, -, heq⟩ := vprintf_directive U va args k buf h hchar.1 hchar.2
      (by omega)
    have hword : va args = a.word := by
      have := hargs 0 (by simp [Piece.words])
      simpa [Piece.words] using this
    obtain ⟨t', buf', hconv, hout⟩ := convert_arg U va args buf d hx.2 hword
    have houtput : output (t ++ t') = padded d a.text := by
      rw [output_append, ht.output, List.nil_append, hout]
    have hlen : s.length < k := by
      have := congrArg List.length hcons
      rw [List.length_append, List.length_cons, List.length_cons] at this
      omega
    rw [hread] at hq heq
    refine ⟨t ++ t', k, q + 1, buf', hlen, hq.tail (List.cons_ne_nil _ _), fun hs => ?_,
      fun hs => ?_, ?_⟩
    · rw [houtput]
      exact padded_eq_fill hsays hx.1 hx.2.length_lt hs
    · rw [houtput]
      exact length_fill_lt hsays hx.1 hx.2.length_lt (not_le.1 hs)
    · rw [heq, List.headD_cons, hconv, Traced.mk_bind, Traced.mk_bind, Traced.mk_bind,
        List.append_assoc]
      rfl

variable (U va) in
/-- The pieces one after the other. -/
theorem vprintf_pieces : ∀ {ps : List Piece} (fuel args : ℕ) (buf : Mem) {p : ℕ}, (∀ x ∈ ps, x.Ok m) →
    Cursor m E p (ps.flatMap Piece.format) → (ps.flatMap Piece.format).length < fuel →
      (∀ i < (ps.flatMap Piece.words).length,
        va (args + i) = (ps.flatMap Piece.words).getD i 0) →
      ∃ t, vprintf U m va fuel p args buf = ⟨t, .ok ()⟩ ∧
        ((∀ x ∈ ps, x.Short) → output t = ps.flatMap Piece.render) ∧
        ((∃ x ∈ ps, ¬ x.Short) → (ps.flatMap Piece.render).length < (output t).length) := by
  intro ps
  induction ps with
  | nil =>
    intro fuel args buf p _ h hfuel _
    obtain ⟨fuel, rfl⟩ := Nat.exists_eq_succ_of_ne_zero (Nat.pos_iff_ne_zero.1 hfuel)
    exact ⟨_, vprintf_end h, fun _ => rfl, fun ⟨x, hx, _⟩ => absurd hx List.not_mem_nil⟩
  | cons x ps ih =>
    intro fuel args buf p hok h hfuel hargs
    simp only [List.flatMap_cons] at h hfuel hargs ⊢
    obtain ⟨t, fuel', q, buf', hfuel', hq, hshort, hlong, heq⟩ := vprintf_piece U va args buf
      (hok x List.mem_cons_self) h hfuel (fun i hi => by
        rw [hargs i (by rw [List.length_append]; omega), List.getD_append _ _ _ _ hi])
    obtain ⟨t', heq', hshort', hlong'⟩ := ih fuel' (args + x.words.length) buf'
      (fun y hy => hok y (List.mem_cons_of_mem x hy)) hq hfuel' (fun i hi => by
        rw [Nat.add_assoc, hargs _ (by rw [List.length_append]; omega),
          List.getD_append_right _ _ _ _ (by omega), Nat.add_sub_cancel_left])
    refine ⟨t ++ t', by rw [heq, heq', Traced.mk_bind], fun hs => ?_, fun hs => ?_⟩
    · rw [output_append, hshort (hs x List.mem_cons_self),
        hshort' fun y hy => hs y (List.mem_cons_of_mem x hy)]
    · -- no part is shorter than its rendering, and one is longer
      rw [output_append, List.length_append, List.length_append]
      have hle : x.render.length ≤ (output t).length := by
        by_cases hx : x.Short
        · rw [hshort hx]
        · exact (hlong hx).le
      have hle' : (ps.flatMap Piece.render).length ≤ (output t').length := by
        by_cases hps : ∀ y ∈ ps, y.Short
        · rw [hshort' hps]
        · push Not at hps
          exact (hlong' hps).le
      obtain ⟨y, hy, hy'⟩ := hs
      obtain rfl | hy := List.mem_cons.1 hy
      · exact Nat.add_lt_add_of_lt_of_le (hlong hy') hle'
      · exact Nat.add_lt_add_of_le_of_lt hle (hlong' ⟨y, hy, hy'⟩)

end Pieces

/-- `_vprintf` prints the rendering of the pieces, with their arguments in order, exactly when no
text is so long that its length is a negative `int` and leaves room for padding. -/
theorem vprintf_renders_iff (U : FloatUnit) (m : Mem) (va : ℕ → UInt32) {p : ℕ} {ps : List Piece}
    (hps : ∀ x ∈ ps, x.Ok m) (hheld : HoldsString m p (ps.flatMap Piece.format))
    (hargs : ∀ i < (ps.flatMap Piece.words).length, va i = (ps.flatMap Piece.words).getD i 0)
    (buf : Mem) :
    (∃ n, ∀ fuel ≥ n, (vprintf U m va fuel p 0 buf).result = .ok () ∧
      output (vprintf U m va fuel p 0 buf).trace = ps.flatMap Piece.render) ↔
      ∀ x ∈ ps, x.Short := by
  have hcur : Cursor m (p + (ps.flatMap Piece.format).length) p (ps.flatMap Piece.format) :=
    ⟨spells_read8.2 hheld, rfl⟩
  have hargs' : ∀ i < (ps.flatMap Piece.words).length,
      va (0 + i) = (ps.flatMap Piece.words).getD i 0 := by
    intro i hi
    rw [Nat.zero_add]
    exact hargs i hi
  constructor
  · rintro ⟨n, hn⟩
    by_contra hlong
    push Not at hlong
    obtain ⟨t, heq, -, hlt⟩ := vprintf_pieces U va
      (max n ((ps.flatMap Piece.format).length + 1)) 0 buf hps hcur (by omega) hargs'
    have hout := (hn _ (le_max_left n ((ps.flatMap Piece.format).length + 1))).2
    rw [heq] at hout
    exact absurd (congrArg List.length hout) (hlt hlong).ne'
  · intro hshort
    refine ⟨(ps.flatMap Piece.format).length + 1, fun fuel hfuel => ?_⟩
    obtain ⟨t, heq, hout, -⟩ := vprintf_pieces U va fuel 0 buf hps hcur (by omega) hargs'
    rw [heq]
    exact ⟨rfl, hout hshort⟩

/-- The pieces of `n=%05d%%`. -/
def samplePieces : List Piece :=
  [.literal (ascii "n="), .directive ⟨false, some true, some 5⟩ (.d 42), .escape]

/-- Their format, from address 16 on. -/
def sampleFormat : Mem := fun x => if x < 16 then 0 else (ascii "n=%05d%%").getD (x - 16) 0

theorem samplePieces_ok : ∀ x ∈ samplePieces, x.Ok sampleFormat := by
  simp [samplePieces, Piece.Ok, Arg.Ok]
  decide

theorem samplePieces_short : ∀ x ∈ samplePieces, x.Short := by
  simp [samplePieces, Piece.Short]
  decide

theorem vprintf_renders_iff_sample : ∃ n, ∀ fuel ≥ n,
    (vprintf exactUnit sampleFormat (fun _ => 42) fuel 16 0 fun _ => 0).result = .ok () ∧
      output (vprintf exactUnit sampleFormat (fun _ => 42) fuel 16 0 fun _ => 0).trace =
        ascii "n=00042%" :=
  (vprintf_renders_iff exactUnit sampleFormat (fun _ => 42) samplePieces_ok (by decide) (by decide)
    fun _ => 0).2
    samplePieces_short

/-- The format `%s` at address 16, and `n` characters at address `2 ^ 29`. -/
def longArg (n : ℕ) : Mem := fun x =>
  if x < 536870912 then (if x < 16 then 0 else (ascii "%s").getD (x - 16) 0)
  else if x < 536870912 + n then 97 else 0

theorem longArg_held {n : ℕ} (hn : n ≤ 3221225472) :
    HoldsString (longArg n) 536870912 (List.replicate n 97) := by
  refine spells_read8.1 (spells_iff.2 fun i hi => ?_)
  rw [List.length_replicate] at hi
  have hmod : (536870912 + i) % 4294967296 = 536870912 + i := Nat.mod_eq_of_lt (by omega)
  rw [Mem.read8, hmod, longArg, if_neg (by omega)]
  by_cases hlt : i < n
  · rw [if_pos (by omega), List.getD_eq_getElem _ _ (by rw [List.length_replicate]; exact hlt),
      List.getElem_replicate]
  · rw [if_neg (by omega), List.getD_eq_default _ _ (by rw [List.length_replicate]; omega)]

theorem longArg_padded {n : ℕ} (hlong : 2147483648 < n) (hn : n ≤ 3221225472) :
    ¬ ∀ (U : FloatUnit) (m : Mem) (va : ℕ → UInt32) (p : ℕ) (ps : List Piece),
      (∀ x ∈ ps, x.Ok m) → HoldsString m p (ps.flatMap Piece.format) →
        (∀ i < (ps.flatMap Piece.words).length, va i = (ps.flatMap Piece.words).getD i 0) →
          ∀ buf, ∃ k, ∀ fuel ≥ k, (vprintf U m va fuel p 0 buf).result = .ok () ∧
            output (vprintf U m va fuel p 0 buf).trace = ps.flatMap Piece.render := by
  intro h
  have hnul : 0 ∉ List.replicate n (97 : UInt8) := by
    intro h0
    exact absurd (List.eq_of_mem_replicate h0) (by decide)
  obtain ⟨x, hx⟩ : ∃ x, x = Piece.directive ⟨false, none, none⟩
    (.s 536870912 ⟨List.replicate n 97, hnul⟩) := ⟨_, rfl⟩
  have hformat : [x].flatMap Piece.format = ascii "%s" := by rw [hx]; rfl
  have hwords : [x].flatMap Piece.words = [536870912] := by rw [hx]; rfl
  have hok : ∀ y ∈ [x], y.Ok (longArg n) := by
    intro y hy
    rw [List.mem_singleton.1 hy, hx]
    exact ⟨by decide, fun _ => longArg_held hn⟩
  have hshort : ¬ x.Short := by
    rw [hx, Piece.Short, Arg.text, if_neg (by decide), List.length_replicate]
    simp only [Option.getD_none]
    omega
  have hcur : Cursor (longArg n) 18 16 ([x].flatMap Piece.format) := by
    rw [hformat]
    exact ⟨⟨rfl, rfl, rfl⟩, rfl⟩
  have hargs : ∀ i < ([x].flatMap Piece.words).length,
      (fun _ => 536870912 : ℕ → UInt32) i = ([x].flatMap Piece.words).getD i 0 := by
    rw [hwords]
    decide
  obtain ⟨k, hk⟩ := h exactUnit (longArg n) (fun _ => 536870912) 16 [x] hok
    (spells_read8.1 hcur.spells) hargs fun _ => 0
  obtain ⟨t, heq, -, hlt⟩ := vprintf_pieces exactUnit (fun _ => 536870912) (max k 3) 0
    (fun _ => 0) hok hcur
    (by rw [hformat]; exact lt_of_lt_of_le (by decide) (le_max_right k 3))
    (fun i hi => hargs i hi)
  have hout := (hk _ (le_max_left k 3)).2
  rw [heq] at hout
  exact absurd (congrArg List.length hout) (hlt ⟨x, List.mem_singleton_self x, hshort⟩).ne'

/-- A string of 3 GiB gets a gigabyte of blanks. -/
theorem vprintf_pads_long_string : ¬ ∀ (U : FloatUnit) (m : Mem) (va : ℕ → UInt32) (p : ℕ)
    (ps : List Piece), (∀ x ∈ ps, x.Ok m) → HoldsString m p (ps.flatMap Piece.format) →
      (∀ i < (ps.flatMap Piece.words).length, va i = (ps.flatMap Piece.words).getD i 0) →
        ∀ buf, ∃ k, ∀ fuel ≥ k, (vprintf U m va fuel p 0 buf).result = .ok () ∧
          output (vprintf U m va fuel p 0 buf).trace = ps.flatMap Piece.render :=
  longArg_padded (n := 3221225472) (by norm_num) (le_refl _)

/-! ## Signed numbers -/

/-- The decimal representation of an integer: a minus sign if it is negative, and the numeral of
its absolute value. -/
def IsDecimal (n : ℤ) (s : List UInt8) : Prop :=
  ∃ ds, IsNumeral 10 n.natAbs ds ∧ s = (if n < 0 then [45] else []) ++ ds.map digitChar

theorem IsDecimal.noNul {n : ℤ} {s : List UInt8} (h : IsDecimal n s) : 0 ∉ s := by
  obtain ⟨ds, hds, rfl⟩ := h
  rw [List.mem_append, not_or, List.mem_map]
  refine ⟨?_, ?_⟩
  · split_ifs
    · decide
    · exact List.not_mem_nil
  · rintro ⟨d, hd, h⟩
    exact digitChar_ne_zero d (by have := hds.digit d hd; omega) h

/-- The digits of the word are the decimal representation when there is no sign to write. -/
theorem isDecimal_word_iff (n : Int32) :
    IsDecimal n.toInt (numeralText 10 n.toUInt32.toNat) ↔ 0 ≤ n := by
  have hint := toInt_toInt32 n.toUInt32
  have hself : n.toUInt32.toInt32 = n := rfl
  have hsign : 0 ≤ n ↔ 0 ≤ n.toInt := by rw [Int32.le_iff_toInt_le, Int32.toInt_zero]
  rw [hself] at hint
  rw [hsign]
  constructor
  · rintro ⟨ds, hds, htext⟩
    by_contra hneg
    rw [if_pos (by omega), List.singleton_append] at htext
    -- a numeral does not begin with a minus sign
    have hmem : (45 : UInt8) ∈ numeralText 10 n.toUInt32.toNat := by
      rw [htext]
      exact List.mem_cons_self
    obtain ⟨d, hd, hchar⟩ := List.mem_map.1 hmem
    have hne : ∀ d < 10, digitChar d ≠ 45 := by decide
    exact hne d (numeral_lt (by omega) hd) hchar
  · intro hpos
    have hlt := n.toUInt32.toNat_lt
    have hnat : n.toUInt32.toNat = n.toInt.natAbs := by
      split_ifs at hint
      · rw [hint, Int.natAbs_natCast]
      · omega
    exact ⟨_, isNumeral_numeral (by omega) _, by rw [if_neg (by omega), hnat]; rfl⟩

/-- `itoa`, and with it `%d`, write the decimal representation of a number exactly when the number
is not negative. -/
theorem itoa_decimal_iff (n : Int32) (p : ℕ) (b : Buf) (U : FloatUnit) (m : Mem)
    (va : ℕ → UInt32) {a : ℕ} (hheld : HoldsString m a (ascii "%d")) (hva : va 0 = n.toUInt32)
    (buf : Mem) {fuel : ℕ} (hfuel : 3 ≤ fuel) :
    ((∃ s, HoldsString (itoa n p b).mem p s ∧ IsDecimal n.toInt s) ↔ 0 ≤ n) ∧
      (IsDecimal n.toInt (output (vprintf U m va fuel a 0 buf).trace) ↔ 0 ≤ n) := by
  constructor
  · rw [← isDecimal_word_iff]
    refine ⟨?_, fun h => ⟨_, holds_itoa n p b, h⟩⟩
    rintro ⟨s, hs, hdec⟩
    rwa [← text_of_itoa hs hdec.noNul]
  · obtain ⟨x, hx⟩ : ∃ x, x = Piece.directive ⟨false, none, none⟩ (.d n) := ⟨_, rfl⟩
    have hlen : (numeralText 10 n.toUInt32.toNat).length ≤ 10 :=
      length_numeralText_le (le_refl _) n.toUInt32.toNat_lt
    have hok : ∀ y ∈ [x], y.Ok m := by
      intro y hy
      rw [List.mem_singleton.1 hy, hx]
      exact ⟨by decide, trivial⟩
    have hshort : ∀ y ∈ [x], y.Short := by
      intro y hy
      rw [List.mem_singleton.1 hy, hx]
      exact le_trans hlen (by decide)
    have hformat : [x].flatMap Piece.format = ascii "%d" := by rw [hx]; rfl
    have hrender : [x].flatMap Piece.render = numeralText 10 n.toUInt32.toNat := by
      rw [hx]
      simp [Piece.render, Flags.fill, Arg.text]
    have hargs : ∀ i < ([x].flatMap Piece.words).length,
        va (0 + i) = ([x].flatMap Piece.words).getD i 0 := by
      intro i hi
      rw [hx] at hi ⊢
      obtain rfl : i = 0 := by simpa [Piece.words] using hi
      exact hva
    have hspelled : HoldsString m a ([x].flatMap Piece.format) := by
      rw [hformat]
      exact hheld
    obtain ⟨t, heq, hout, -⟩ := vprintf_pieces U va fuel 0 buf (E := a + 2) (p := a) hok
      ⟨spells_read8.2 hspelled, by rw [hformat]; rfl⟩ (by rw [hformat]; exact hfuel) hargs
    rw [heq, hout hshort, hrender]
    exact isDecimal_word_iff n

/-- The format `%d`, from address 16 on. -/
def signedFormat : Mem := fun x => if x < 16 then 0 else (ascii "%d").getD (x - 16) 0

theorem itoa_decimal_iff_neg_one :
    ¬ IsDecimal (-1) (output (vprintf exactUnit signedFormat (fun _ => 4294967295) 3 16 0
      fun _ => 0).trace) :=
  fun h => absurd ((itoa_decimal_iff (-1) 0 ⟨fun _ => 0, []⟩ exactUnit signedFormat
    (fun _ => 4294967295) (by decide) (by decide) (fun _ => 0) (le_refl 3)).2.1 h) (by decide)

/-- `itoa(-1)` leaves `4294967295`. -/
theorem itoa_neg_one : ¬ ∀ (n : Int32) (p : ℕ) (b : Buf),
    ∃ s, HoldsString (itoa n p b).mem p s ∧ IsDecimal n.toInt s := by
  intro h
  obtain ⟨s, hs, hdec⟩ := h (-1) 0 ⟨fun _ => 0, []⟩
  rw [text_of_itoa hs hdec.noNul, isDecimal_word_iff] at hdec
  exact absurd hdec (by decide)

end Ospp
