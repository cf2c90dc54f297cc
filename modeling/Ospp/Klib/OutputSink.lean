import Mathlib.Data.Set.Function
import Ospp.Klib.PrintfRender
import Ospp.Lib.Cmd

/-!
# Sinks that write to memory

`_vprintf` once more, with a sink that may write to the memory it reads: the format and the strings
of the `%s` conversions are read as they are when their turn comes. The argument words are the
caller's, which no pointer names.

`Plays` relates such a run to one on memory as it was at the start: it returns the same and puts out
the same characters, as long as they fall on no address that is read (`vprintf_plays`).
-/

namespace Ospp

/-- A sink, and the memory that is seen while characters arrive. -/
structure OutputSink (σ : Type) where
  putc : σ → UInt8 → σ
  mem : σ → Mem

namespace OutputSink

variable {σ : Type}

/-! ## The source -/

/-- Code that prints to a sink. -/
abbrev To (σ α : Type) := Cmd σ PrintfEvent Halt α

section Source

variable (out : OutputSink σ) (U : FloatUnit) (va : ℕ → UInt32)

def put (c : UInt8) : To σ Unit := fun s => ⟨[.putc c], .ok ((), out.putc s c)⟩

/-- Code that puts nothing out, on the memory as it is. -/
def look {α : Type} (f : Mem → Printf α) : To σ α := fun s =>
  ⟨(f (out.mem s)).trace, (f (out.mem s)).result.map fun a => (a, s)⟩

/-- `put_padding`. -/
def putPadding (sym : UInt8) : ℕ → To σ Unit
  | 0 => pure ()
  | padding + 1 => do
    out.put sym
    putPadding sym padding

/-- `while (*str) out.putc(out.ctx, *str++)`, with the characters behind `str` in each memory. -/
def putChars (rd : Mem → ℕ → UInt8) : ℕ → ℕ → To σ Unit
  | 0, _ => Cmd.fail .diverged
  | fuel + 1, str => do
    let c ← out.look fun m => pure (rd m str)
    if c ≠ 0 then do
      out.put c
      putChars rd fuel (str + 1)
    else pure ()

/-- `put_string`. -/
def putString (str : Mem → Option (ℕ → UInt8)) (width : Int32) (padRight : Bool) (sym : UInt8) :
    To σ Unit := do
  let rd := fun m => (str m).getD fun i => (ascii "(null)").getD i 0
  let len ← out.look fun m => Traced.lift (strlen (rd m) 0)
  let padding := padding width len.toInt32
  if !padRight then out.putPadding sym padding.toInt.toNat
  out.putChars rd 4294967296 0
  if padRight then out.putPadding 32 padding.toInt.toNat

/-- The `switch`. -/
def convert (c : UInt8) (d : Spec) (args : ℕ) (buf : Mem) : To σ (ℕ × Mem) :=
  match Conversion.ofChar c with
  | some cv => do
    let buf ← out.look fun _ => scratch (cv.fill U va d args) buf
    out.putString (fun m => cv.source m va args buf) d.width d.padRight d.sym
    return (args + cv.words, buf)
  | none => do
    out.put 37
    out.put c
    return (args, buf)

/-- A directive, from the character after `%` on. -/
def directive (fuel format args : ℕ) (buf : Mem) : To σ (ℕ × ℕ × Mem) := do
  let (d, format) ← out.look fun m => parseSpec m fuel format
  let c ← out.look fun m => peek m format
  let (args, buf) ← out.convert U va c d args buf
  return (format + 1, args, buf)

/-- `_vprintf`. -/
def vprintf : ℕ → ℕ → ℕ → Mem → To σ Unit
  | 0, _, _, _ => Cmd.fail .diverged
  | fuel + 1, format, args, buf => do
    let c ← out.look fun m => peek m format
    if c = 0 then pure ()
    else if c ≠ 37 then do
      out.put c
      vprintf fuel (format + 1) args buf
    else do
      let c ← out.look fun m => peek m (format + 1)
      if c = 0 then pure ()
      else if c = 37 then do
        out.put c
        vprintf fuel (format + 2) args buf
      else do
        let (format, args, buf) ← out.directive U va fuel (format + 1) args buf
        vprintf fuel format args buf

end Source

/-! ## Memory that keeps what is read -/

variable {out : OutputSink σ} {A : Set ℕ} {m m' : Mem} {α β : Type}

/-- Two memories have the same bytes at the addresses of `A`. -/
def Agrees (A : Set ℕ) (m m' : Mem) : Prop := Set.EqOn m'.read8 m.read8 A

theorem Agrees.spells (h : Agrees A m m') (rd : Mem → ℕ → UInt8) {p q : ℕ} {s : List UInt8}
    (hrd : ∀ m i, rd m i = m.read8 (q + i)) (hA : ∀ i ≤ s.length, q + (p + i) ∈ A)
    (hs : Spells (rd m) p s) : Spells (rd m') p s := by
  refine spells_iff.2 fun i hi => ?_
  rw [hrd, h (hA i hi), ← hrd]
  exact spells_iff.1 hs i hi

theorem Agrees.cursor (h : Agrees A m m') {E p : ℕ} {s : List UInt8} (hA : Set.Icc p E ⊆ A)
    (hs : Cursor m E p s) : Cursor m' E p s := by
  have hE := hs.ends
  refine ⟨?_, hE⟩
  refine h.spells (fun m i => m.read8 (0 + i)) (q := 0) (fun _ _ => rfl) (fun i hi => ?_)
    (by simpa only [Nat.zero_add] using hs.spells) |> fun h => by simpa only [Nat.zero_add] using h
  rw [Nat.zero_add]
  exact hA ⟨by omega, by omega⟩

/-- From a sink whose memory keeps the addresses of `A` as in `m`, whatever part of the output it has
taken: `y` returns what `x` does, and the sink has taken the output of `x`. -/
def Plays (out : OutputSink σ) (A : Set ℕ) (m : Mem) (y : To σ α) (x : Printf α) : Prop :=
  ∀ s, (∀ l, l <+: output x.trace → Agrees A m (out.mem (l.foldl out.putc s))) →
    (y s).result = x.result.map fun a => (a, (output x.trace).foldl out.putc s)

theorem plays_pure (a : α) : out.Plays A m (pure a) (pure a) := fun _ _ => rfl

theorem plays_fail (e : Halt) : out.Plays A m (Cmd.fail e : To σ α) (Traced.lift (.error e)) :=
  fun _ _ => rfl

theorem plays_put (c : UInt8) : out.Plays A m (out.put c) (Ospp.putc c) := fun _ _ => rfl

theorem plays_look {f : Mem → Printf α} {x : Printf α} (hout : output x.trace = [])
    (hf : ∀ m', Agrees A m m' → (f m').result = x.result) : out.Plays A m (out.look f) x := by
  intro s hs
  have hsame := hf _ (hs [] List.nil_prefix)
  show (f (out.mem s)).result.map _ = _
  rw [hout]
  rw [List.foldl_nil] at hsame
  rw [hsame]
  rfl

/-- One after the other. -/
theorem Plays.bind {y : To σ α} {x : Printf α} {g : α → To σ β} {f : α → Printf β}
    (h : out.Plays A m y x) (hf : ∀ a, x.result = .ok a → out.Plays A m (g a) (f a)) :
    out.Plays A m (y >>= g) (x >>= f) := by
  intro s hs
  obtain ⟨t, r⟩ := x
  cases r with
  | error e =>
    have hy := h s hs
    have hbind : ((⟨t, .error e⟩ : Printf α) >>= f) = ⟨t, .error e⟩ := rfl
    rw [hbind]
    exact Traced.result_bind_error.2 (Or.inl hy)
  | ok a =>
    rw [Traced.mk_bind] at hs ⊢
    simp only [output_append] at hs ⊢
    have hy := h s fun l hl => hs l (hl.trans (List.prefix_append _ _))
    have hg := hf a rfl ((output t).foldl out.putc s) fun l hl => by
      rw [← List.foldl_append]
      exact hs _ ((List.prefix_append_right_inj _).2 hl)
    rw [List.foldl_append]
    show ((y s) >>= fun r => g r.1 r.2).result = _
    cases hr : (f a).result with
    | error e =>
      rw [hr] at hg
      exact Traced.result_bind_error.2 (Or.inr ⟨_, hy, hg⟩)
    | ok b =>
      rw [hr] at hg
      exact Traced.result_bind.2 ⟨_, hy, hg⟩

theorem plays_putPadding (sym : UInt8) (n : ℕ) :
    out.Plays A m (out.putPadding sym n) (Ospp.putPadding sym n) := by
  induction n with
  | zero => exact plays_pure ()
  | succ n ih => exact (plays_put sym).bind fun _ _ => ih

/-- A string that stands where the sink does not write. -/
theorem plays_putChars {rd : Mem → ℕ → UInt8} : ∀ {s : List UInt8} {fuel p : ℕ},
    (∀ m', Agrees A m m' → Spells (rd m') p s) → 0 ∉ s → s.length < fuel →
      out.Plays A m (out.putChars rd fuel p) ⟨s.map .putc, .ok ()⟩ := by
  intro s
  induction s with
  | nil =>
    intro fuel p hs _ hfuel
    obtain ⟨fuel, rfl⟩ := Nat.exists_eq_succ_of_ne_zero (Nat.pos_iff_ne_zero.1 hfuel)
    refine (plays_look (x := pure 0) rfl fun m' hm => ?_).bind (f := fun _ => pure ())
      fun a ha => ?_
    · exact congrArg Except.ok (hs m' hm)
    · cases ha
      exact plays_pure ()
  | cons c s ih =>
    intro fuel p hs hnul hfuel
    rw [List.length_cons] at hfuel
    rw [List.mem_cons, not_or] at hnul
    obtain ⟨fuel, rfl⟩ := Nat.exists_eq_succ_of_ne_zero (show fuel ≠ 0 by omega)
    have hrest : out.Plays A m (out.putChars rd fuel (p + 1)) ⟨s.map .putc, .ok ()⟩ :=
      ih (fun m' hm => (hs m' hm).2) hnul.2 (by omega)
    refine (plays_look (x := pure c) rfl fun m' hm => ?_).bind
      (f := fun c => Ospp.putc c >>= fun _ => ⟨s.map .putc, .ok ()⟩) fun a ha => ?_
    · exact congrArg Except.ok (hs m' hm).1
    · cases ha
      rw [if_pos (Ne.symm hnul.1)]
      exact (plays_put c).bind fun _ _ => hrest

theorem plays_putString {str : Mem → Option (ℕ → UInt8)} {s : CString}
    (hs : ∀ m', Agrees A m m' →
      Spells ((str m').getD fun i => (ascii "(null)").getD i 0) 0 s.bytes)
    (hlen : s.bytes.length < 4294967296) (width : Int32) (padRight : Bool) (sym : UInt8) :
    out.Plays A m (out.putString str width padRight sym)
      (Ospp.putString (str m) width padRight sym) := by
  have hm := hs m (Set.eqOn_refl _ _)
  have hchars : out.Plays A m
      (out.putChars (fun m => (str m).getD fun i => (ascii "(null)").getD i 0) 4294967296 0)
      (Ospp.putChars ((str m).getD fun i => (ascii "(null)").getD i 0) 4294967296 0) := by
    rw [putChars_eq hm s.noNul hlen]
    exact plays_putChars hs s.noNul hlen
  refine (plays_look rfl fun m' hm' => ?_).bind fun len _ => ?_
  · show strlen _ 0 = strlen _ 0
    rw [strlen_eq (hs m' hm') hlen, strlen_eq hm hlen]
  · cases padRight with
    | true => exact hchars.bind fun _ _ => plays_putPadding _ _
    | false => exact (plays_putPadding _ _).bind fun _ _ => hchars.bind fun _ _ => plays_pure ()

end OutputSink

/-! ## The addresses that are read -/

/-- The addresses of the string that a `%s` conversion prints, and of its terminator. -/
def ArgRead (m : Mem) (va : ℕ → UInt32) (x : Conversion × Spec × ℕ) (a : ℕ) : Prop :=
  x.1 = .s ∧ va x.2.2 ≠ 0 ∧
    ∃ i, a = (va x.2.2).toNat + i ∧ ∀ j < i, m.read8 ((va x.2.2).toNat + j) ≠ 0

/-- The addresses of a format, and of the strings that its conversions print. -/
def Sources (m : Mem) (va : ℕ → UInt32) (format : ℕ) (s : CString) : Set ℕ :=
  {a | (format ≤ a ∧ a ≤ format + s.bytes.length) ∨
    ∃ fuel, ∃ x ∈ conversions m fuel format 0, ArgRead m va x a}

namespace OutputSink

variable {σ : Type} {out : OutputSink σ} {A : Set ℕ} {m m' : Mem} {U : FloatUnit}
  {va : ℕ → UInt32} {E : ℕ}

/-- The string of a conversion is the same in every memory that keeps it. -/
theorem Agrees.source {cv : Conversion} {d : Spec} {args : ℕ} {buf : Mem} {s : CString}
    (h : Agrees A m m') (hA : ∀ a, ArgRead m va (cv, d, args) a → a ∈ A)
    (hs : Spells ((cv.source m va args buf).getD fun i => (ascii "(null)").getD i 0) 0 s.bytes) :
    Spells ((cv.source m' va args buf).getD fun i => (ascii "(null)").getD i 0) 0 s.bytes := by
  by_cases hcv : cv = .s
  · subst hcv
    simp only [Conversion.source] at hs ⊢
    by_cases hnull : va args = 0
    · rwa [if_pos hnull] at hs ⊢
    · rw [if_neg hnull] at hs ⊢
      refine h.spells (fun m i => m.read8 ((va args).toNat + i)) (fun _ _ => rfl)
        (fun i hi => hA _ ⟨rfl, hnull, 0 + i, rfl, fun j hj => ?_⟩) hs
      -- no character before the terminator is zero
      have hj := spells_iff.1 hs j (by omega)
      rw [Nat.zero_add] at hj
      intro h0
      refine s.noNul ?_
      rw [show (0 : UInt8) = s.bytes.getD j 0 from h0.symm.trans hj,
        List.getD_eq_getElem _ _ (by omega)]
      exact List.getElem_mem _
  · cases cv with
    | s => exact absurd rfl hcv
    | _ => exact hs

theorem plays_convert (hE : m.read8 E = 0) {c : UInt8} {d : Spec} {args : ℕ} {buf : Mem}
    (hA : ∀ cv, Conversion.ofChar c = some cv → ∀ a, ArgRead m va (cv, d, args) a → a ∈ A) :
    out.Plays A m (out.convert U va c d args buf) (Ospp.convert U m va c d args buf) := by
  unfold OutputSink.convert Ospp.convert
  cases hc : Conversion.ofChar c with
  | none => exact (plays_put _).bind fun _ _ => (plays_put _).bind fun _ _ => plays_pure _
  | some cv =>
    have hout : output (scratch (cv.fill U va d args) buf).trace = [] := by
      simp [output, scratch]
    refine (plays_look hout fun m' _ => rfl).bind fun buf' hbuf => ?_
    obtain ⟨s, hlen, hs⟩ := exists_source U va args d hE cv ⟨buf, []⟩
    obtain rfl : (cv.fill U va d args ⟨buf, []⟩).mem = buf' := by
      simp only [scratch] at hbuf
      split_ifs at hbuf
      exact Except.ok.inj hbuf
    exact (plays_putString (fun m' hm => hm.source (hA cv hc) hs) hlen _ _ _).bind
      fun _ _ => plays_pure _

/-- The format reads the same in every memory that keeps it. -/
theorem plays_peek {p : ℕ} (hp : p ∈ A) : out.Plays A m (out.look fun m => peek m p) (peek m p) :=
  plays_look rfl fun m' hm => by
    show Except.ok (m'.read8 p) = Except.ok (m.read8 p)
    rw [hm hp]

theorem plays_parseSpec {p fuel : ℕ} {s : List UInt8} (h : Cursor m E p s)
    (hA : Set.Icc p E ⊆ A) (hfuel : s.length < fuel) :
    out.Plays A m (out.look fun m => parseSpec m fuel p) (parseSpec m fuel p) := by
  obtain ⟨t, q, heq, hq, ht⟩ := parseSpec_eq h hfuel
  refine plays_look (by rw [heq]; exact ht.output) fun m' hm => ?_
  obtain ⟨t', q', heq', hq', -⟩ := parseSpec_eq (hm.cursor hA h) hfuel
  have hqq : q' = q := by
    have h1 := hq.ends
    have h2 := hq'.ends
    omega
  rw [heq, heq', hqq]

/-- **A run to a sink that keeps what is read** is a run on the memory as it was. -/
theorem vprintf_plays : ∀ (fuel args : ℕ) (buf : Mem) {s : List UInt8} {p : ℕ}, ¬ Truncated s →
    0 ∉ s → Cursor m E p s → s.length < fuel → Set.Icc p E ⊆ A →
      (∀ x ∈ conversions m fuel p args, ∀ a, ArgRead m va x a → a ∈ A) →
        out.Plays A m (out.vprintf U va fuel p args buf) (Ospp.vprintf U m va fuel p args buf) := by
  intro fuel
  induction fuel with
  | zero => intro args buf s p _ _ _ hfuel; exact absurd hfuel (Nat.not_lt_zero _)
  | succ fuel ih =>
    intro args buf s p hs hnul h hfuel hA hargs
    have hzero := h.zero
    have hpA : p ∈ A := hA ⟨le_refl p, h.le⟩
    have hread : m.read8 p = s.headD 0 := h.read
    unfold OutputSink.vprintf Ospp.vprintf
    refine (plays_peek hpA).bind fun c hc => ?_
    obtain rfl : m.read8 p = c := Except.ok.inj hc
    by_cases h0 : m.read8 p = 0
    · rw [if_pos h0, if_pos h0]
      exact plays_pure ()
    rw [if_neg h0, if_neg h0]
    have hne : s ≠ [] := ne_nil_of_headD hread.symm h0
    have htail := h.tail hne
    have hA' : Set.Icc (p + 1) E ⊆ A := (Set.Icc_subset_Icc_left (Nat.le_succ p)).trans hA
    obtain ⟨c, s, rfl⟩ := List.exists_cons_of_ne_nil hne
    rw [List.headD_cons] at hread
    rw [List.mem_cons, not_or] at hnul
    rw [List.length_cons] at hfuel
    by_cases h37 : m.read8 p = 37
    · rw [if_neg (not_not.2 h37), if_neg (not_not.2 h37)]
      rw [h37] at hread
      subst hread
      have hread' : m.read8 (p + 1) = s.headD 0 := htail.read
      refine (plays_peek (hA ⟨Nat.le_succ p, htail.le⟩)).bind fun c hc => ?_
      obtain rfl : m.read8 (p + 1) = c := Except.ok.inj hc
      by_cases h0' : m.read8 (p + 1) = 0
      · rw [if_pos h0', if_pos h0']
        exact plays_pure ()
      rw [if_neg h0', if_neg h0']
      obtain ⟨c, s, rfl⟩ := List.exists_cons_of_ne_nil (ne_nil_of_headD hread'.symm h0')
      rw [List.headD_cons] at hread'
      rw [List.tail_cons] at htail
      have hnul' := hnul.2
      rw [List.mem_cons, not_or] at hnul'
      rw [List.length_cons] at hfuel
      by_cases h37' : m.read8 (p + 1) = 37
      · rw [if_pos h37', if_pos h37']
        rw [conversions_of_percent_percent h37 h37'] at hargs
        rw [h37'] at hread'
        subst hread'
        exact (plays_put _).bind fun _ _ => ih args buf (fun hs' => hs (.escape hs')) hnul'.2
          (htail.tail (List.cons_ne_nil _ s)) (by omega)
          ((Set.Icc_subset_Icc_left (by omega)).trans hA) hargs
      rw [if_neg h37', if_neg h37']
      have hc37 : c ≠ 37 := hread' ▸ h37'
      have hlt : (c :: s).length < fuel := by rw [List.length_cons]; omega
      obtain ⟨t, q, heq, hq, ht⟩ := parseSpec_eq htail hlt
      have hrest : (readSpec (c :: s)).2 ≠ [] := fun e => hs (.here hc37 e)
      obtain ⟨c', s', hcons⟩ := List.exists_cons_of_ne_nil hrest
      have hsuffix : c' :: s' <:+ c :: s := hcons ▸ readSpec_suffix (c :: s)
      have hlen := hsuffix.length_le
      rw [List.length_cons, List.length_cons] at hlen
      have hnul'' : 0 ∉ c' :: s' := noNul_of_suffix hsuffix hnul.2
      rw [hcons] at hq
      have hqE := hq.ends
      have hpE := htail.ends
      rw [List.length_cons] at hqE hpE
      rw [conversions_of_directive h37 h0' h37' (by rw [heq])] at hargs
      have hAq : Set.Icc q E ⊆ A := (Set.Icc_subset_Icc_left (by omega)).trans hA
      unfold OutputSink.directive Ospp.directive
      -- the directive, then what is behind it
      refine (Plays.bind (plays_parseSpec htail hA' (by rw [List.length_cons]; omega))
        fun r hr => ?_).bind fun r hr => ?_
      · rw [heq] at hr
        cases hr
        refine (plays_peek (hAq ⟨le_refl q, hq.le⟩)).bind fun c₁ hc₁ => ?_
        obtain rfl : m.read8 q = c₁ := Except.ok.inj hc₁
        refine (plays_convert hzero fun cv hcv => ?_).bind fun _ _ => plays_pure _
        rw [hcv] at hargs
        exact hargs _ List.mem_cons_self
      · obtain ⟨_, hspec, hr⟩ := Traced.result_bind.1 hr
        rw [heq] at hspec
        cases hspec
        obtain ⟨c₁, hc₁, hr⟩ := Traced.result_bind.1 hr
        obtain rfl : m.read8 q = c₁ := Except.ok.inj hc₁
        obtain ⟨r', hconv, hr⟩ := Traced.result_bind.1 hr
        cases hr
        refine ih r'.1 r'.2 (fun hs' => hs (.directive hc37 hcons hs'))
          (fun h0 => hnul'' (List.mem_cons_of_mem c' h0)) (hq.tail (List.cons_ne_nil _ _))
          (by omega) ((Set.Icc_subset_Icc_left (by omega)).trans hA) ?_
        rw [convert_args U m va hconv]
        cases hcv : Conversion.ofChar (m.read8 q) with
        | none => rwa [hcv] at hargs
        | some cv =>
          rw [hcv] at hargs
          exact fun x hx => hargs x (List.mem_cons_of_mem _ hx)
    · rw [if_pos h37, if_pos h37]
      rw [conversions_of_char h0 h37] at hargs
      exact (plays_put _).bind fun _ _ => ih args buf (fun hs' => hs (.literal (hread ▸ h37) hs'))
        hnul.2 htail (by omega) hA' hargs

end OutputSink

end Ospp
