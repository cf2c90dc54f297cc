import Ospp.Klib.Printf

/-!
# What formatted output touches

How far `_vprintf` reads, and how far its conversions write.

The array `buf` has 64 characters. Only `ftoa` can write more: `vprintf_fits_iff`.

The character that names a conversion is taken with `c = *format++`, whatever it is. When the
format ends behind the flags, the width or the precision of a directive, that character is the
terminator, and the reading goes on behind it: `vprintf_stops_iff`.
-/

namespace Ospp

/-! ## The array -/

/-- The conversions that a run comes to, each with its directive and the argument word it starts
at. -/
def conversions (m : Mem) : ℕ → ℕ → ℕ → List (Conversion × Spec × ℕ)
  | 0, _, _ => []
  | fuel + 1, format, args =>
    if m.read8 format = 0 then []
    else if m.read8 format ≠ 37 then conversions m fuel (format + 1) args
    else if m.read8 (format + 1) = 0 then []
    else if m.read8 (format + 1) = 37 then conversions m fuel (format + 2) args
    else
      match (parseSpec m fuel (format + 1)).result with
      | .error _ => []
      | .ok (d, format) =>
        match Conversion.ofChar (m.read8 format) with
        | some cv => (cv, d, args) :: conversions m fuel (format + 1) (args + cv.words)
        | none => conversions m fuel (format + 1) args

section Conversions

variable {m : Mem} {fuel fuel' p args : ℕ}

theorem conversions_of_zero (h : m.read8 p = 0) : conversions m (fuel + 1) p args = [] :=
  if_pos h

theorem conversions_of_char (h0 : m.read8 p ≠ 0) (h37 : m.read8 p ≠ 37) :
    conversions m (fuel + 1) p args = conversions m fuel (p + 1) args :=
  (if_neg h0).trans (if_pos h37)

section Percent

variable (h : m.read8 p = 37)

include h

/-- The character after `%` decides. -/
theorem conversions_of_percent : conversions m (fuel + 1) p args =
    if m.read8 (p + 1) = 0 then []
    else if m.read8 (p + 1) = 37 then conversions m fuel (p + 2) args
    else
      match (parseSpec m fuel (p + 1)).result with
      | .error _ => []
      | .ok (d, q) =>
        match Conversion.ofChar (m.read8 q) with
        | some cv => (cv, d, args) :: conversions m fuel (q + 1) (args + cv.words)
        | none => conversions m fuel (q + 1) args := by
  have h0 : ¬ m.read8 p = 0 := by rw [h]; decide
  exact (if_neg h0).trans (if_neg (not_not.2 h))

theorem conversions_of_percent_zero (h0 : m.read8 (p + 1) = 0) :
    conversions m (fuel + 1) p args = [] := by
  rw [conversions_of_percent h, if_pos h0]

theorem conversions_of_percent_percent (h37 : m.read8 (p + 1) = 37) :
    conversions m (fuel + 1) p args = conversions m fuel (p + 2) args := by
  rw [conversions_of_percent h, h37, if_neg (by decide), if_pos rfl]

/-- A directive comes to its conversion, if its character names one. -/
theorem conversions_of_directive (h0 : m.read8 (p + 1) ≠ 0) (h37 : m.read8 (p + 1) ≠ 37)
    {d : Spec} {q : ℕ} (hspec : (parseSpec m fuel (p + 1)).result = .ok (d, q)) :
    conversions m (fuel + 1) p args =
      match Conversion.ofChar (m.read8 q) with
      | some cv => (cv, d, args) :: conversions m fuel (q + 1) (args + cv.words)
      | none => conversions m fuel (q + 1) args := by
  rw [conversions_of_percent h, if_neg h0, if_neg h37, hspec]

end Percent

/-- A number that has been read is read with more fuel. -/
theorem parseNumber_mono : ∀ {fuel fuel' p : ℕ} {n : Int32} {r : Int32 × ℕ},
    (parseNumber m fuel p n).result = .ok r → fuel ≤ fuel' →
      (parseNumber m fuel' p n).result = .ok r := by
  intro fuel
  induction fuel with
  | zero => intro fuel' p n r h _; cases h
  | succ fuel ih =>
    intro fuel' p n r h hle
    obtain ⟨fuel', rfl⟩ : ∃ k, fuel' = k + 1 := ⟨fuel' - 1, by omega⟩
    rw [parseNumber, Traced.result_bind] at h ⊢
    obtain ⟨c, hc, h⟩ := h
    refine ⟨c, hc, ?_⟩
    split_ifs at h ⊢
    · exact ih h (by omega)
    · exact h

theorem parseWidths_mono {padRight : Bool} {sym : UInt8} {r : Spec × ℕ}
    (h : (parseWidths m fuel padRight sym p).result = .ok r) (hle : fuel ≤ fuel') :
    (parseWidths m fuel' padRight sym p).result = .ok r := by
  simp only [parseWidths, Traced.result_bind] at h ⊢
  obtain ⟨x, hx, c, hc, h⟩ := h
  refine ⟨x, parseNumber_mono hx hle, c, hc, ?_⟩
  split_ifs at h ⊢
  · rw [Traced.result_bind] at h ⊢
    obtain ⟨y, hy, h⟩ := h
    exact ⟨y, parseNumber_mono hy hle, h⟩
  · exact h

theorem parseSpec_mono {r : Spec × ℕ} (h : (parseSpec m fuel p).result = .ok r)
    (hle : fuel ≤ fuel') : (parseSpec m fuel' p).result = .ok r := by
  simp only [parseSpec, Traced.result_bind] at h ⊢
  obtain ⟨c, hc, c', hc', h⟩ := h
  exact ⟨c, hc, c', hc', parseWidths_mono h hle⟩

/-- With more fuel a run comes to more conversions. -/
theorem conversions_mono {x : Conversion × Spec × ℕ} : ∀ {fuel fuel' p args : ℕ},
    x ∈ conversions m fuel p args → fuel ≤ fuel' → x ∈ conversions m fuel' p args := by
  intro fuel
  induction fuel with
  | zero => intro fuel' p args h _; exact absurd h List.not_mem_nil
  | succ fuel ih =>
    intro fuel' p args h hle
    obtain ⟨fuel', rfl⟩ : ∃ k, fuel' = k + 1 := ⟨fuel' - 1, by omega⟩
    have hle : fuel ≤ fuel' := by omega
    by_cases h0 : m.read8 p = 0
    · rw [conversions_of_zero h0] at h
      exact absurd h List.not_mem_nil
    by_cases h37 : m.read8 p = 37
    · by_cases h0' : m.read8 (p + 1) = 0
      · rw [conversions_of_percent_zero h37 h0'] at h
        exact absurd h List.not_mem_nil
      by_cases h37' : m.read8 (p + 1) = 37
      · rw [conversions_of_percent_percent h37 h37'] at h ⊢
        exact ih h hle
      cases hspec : (parseSpec m fuel (p + 1)).result with
      | error e =>
        rw [conversions_of_percent h37, if_neg h0', if_neg h37', hspec] at h
        exact absurd h List.not_mem_nil
      | ok r =>
        rw [conversions_of_directive h37 h0' h37' hspec] at h
        rw [conversions_of_directive h37 h0' h37' (parseSpec_mono hspec hle)]
        cases hc : Conversion.ofChar (m.read8 r.2) with
        | none =>
          rw [hc] at h
          exact ih h hle
        | some cv =>
          rw [hc] at h
          exact List.mem_cons.2 ((List.mem_cons.1 h).imp_right fun h => ih h hle)
    · rw [conversions_of_char h0 h37] at h ⊢
      exact ih h hle

end Conversions

/-- The text of a `%f` conversion has no more than 63 characters. -/
def Fits (U : FloatUnit) (va : ℕ → UInt32) (x : Conversion × Spec × ℕ) : Prop :=
  x.1 = .f → ftoaLength U (U.ofDouble (va x.2.2) (va (x.2.2 + 1))) x.2.1.prec ≤ 63

theorem Fits.prec_le {U : FloatUnit} {va : ℕ → UInt32} {d : Spec} {args : ℕ}
    (h : Fits U va (.f, d, args)) : d.prec.toNat ≤ 62 := by
  have hlen : ftoaLength U (U.ofDouble (va args) (va (args + 1))) d.prec ≤ 63 := h rfl
  by_cases hpos : 0 < d.prec
  · rw [ftoaLength, if_pos hpos] at hlen
    omega
  · have hzero : ¬ 0 < d.prec.toNat := fun h => hpos (UInt32.lt_iff_toNat_lt.2 h)
    omega

section Array

variable {U : FloatUnit} {m : Mem} {va : ℕ → UInt32} {α β : Type}

/-- Nothing is written to `buf`. -/
def NoBuf (x : Printf α) : Prop := ∀ i, .buf i ∉ x.trace

theorem noBuf_peek (p : ℕ) : NoBuf (peek m p) := by
  intro i h
  simp [peek_eq] at h

theorem NoBuf.bind {x : Printf α} {f : α → Printf β} (hx : NoBuf x) (hf : ∀ a, NoBuf (f a)) :
    NoBuf (x >>= f) := by
  intro i h
  obtain h | ⟨a, -, h⟩ := Traced.mem_trace_bind.1 h
  · exact hx i h
  · exact hf a i h

theorem noBuf_parseNumber : ∀ (fuel p : ℕ) (n : Int32), NoBuf (parseNumber m fuel p n) := by
  intro fuel
  induction fuel with
  | zero => intro p n i h; exact absurd h List.not_mem_nil
  | succ fuel ih =>
    intro p n
    refine (noBuf_peek p).bind fun c => ?_
    split_ifs
    · exact ih _ _
    · exact fun i h => absurd h List.not_mem_nil

theorem noBuf_parseSpec (fuel p : ℕ) : NoBuf (parseSpec m fuel p) := by
  refine (noBuf_peek p).bind fun c => ?_
  refine (noBuf_peek _).bind fun c => ?_
  refine (noBuf_parseNumber _ _ _).bind fun n => ?_
  refine (noBuf_peek _).bind fun c => ?_
  split_ifs
  · exact (noBuf_parseNumber _ _ _).bind fun n i h => absurd h List.not_mem_nil
  · exact fun i h => absurd h List.not_mem_nil

/-- A conversion stays in the array, unless it is `ftoa` with too long a text. -/
theorem within_iff (cv : Conversion) (d : Spec) (args : ℕ) (buf : Mem) :
    cv.Within U va d args buf ↔ Fits U va (cv, d, args) := by
  unfold Conversion.Within bufSize
  have hnumeral : ∀ (base : UInt32) (p : ℕ) (n : UInt32) (b : Buf), 10 ≤ base.toNat →
      base.toNat ≤ 36 → p ≤ 2 → (∀ i ∈ b.written, i < 64) →
        ∀ i ∈ (uvtoa p base n b).written, i < 64 := by
    intro base p n b h10 h36 hp hb i hi
    have hlen := length_numeralText_le h10 n.toNat_lt
    obtain h | h := mem_written_uvtoa (by omega) h36 hi
    · exact hb i h
    · omega
  have hnil : ∀ i ∈ (Buf.mk buf []).written, i < 64 := fun i h => absurd h List.not_mem_nil
  cases cv with
  | d =>
    rw [Conversion.fill, itoa_eq_utoa]
    exact iff_of_true (hnumeral 10 0 _ _ (by decide) (by decide) (by omega) hnil) (by simp [Fits])
  | u =>
    exact iff_of_true (hnumeral 10 0 _ _ (by decide) (by decide) (by omega) hnil) (by simp [Fits])
  | x =>
    exact iff_of_true (hnumeral 16 0 _ _ (by decide) (by decide) (by omega) hnil) (by simp [Fits])
  | p =>
    refine iff_of_true (hnumeral 16 2 _ _ (by decide) (by decide) (by omega) ?_) (by simp [Fits])
    simp [Buf.put]
  | s => exact iff_of_true hnil (by simp [Fits])
  | c => exact iff_of_true (by simp [Conversion.fill, Buf.put]) (by simp [Fits])
  | f =>
    obtain ⟨cs, hlen, heq⟩ := ftoa_eq U (U.ofDouble (va args) (va (args + 1))) 0 d.prec ⟨buf, []⟩
    rw [Conversion.fill, heq]
    simp only [Buf.mem_written_puts, List.length_append, hlen, List.length_singleton, Fits,
      forall_const]
    constructor
    · intro h
      have := h (ftoaLength U (U.ofDouble (va args) (va (args + 1))) d.prec)
        (Or.inr ⟨Nat.zero_le _, by omega⟩)
      omega
    · rintro h i (hi | hi)
      · exact absurd hi List.not_mem_nil
      · omega

variable (U va) in
/-- A directive writes to the array what its conversion does. -/
theorem convert_fits_iff {E : ℕ} (hE : m.read8 E = 0) (c : UInt8) (d : Spec) (args : ℕ) (buf : Mem) :
    (∀ i, .buf i ∈ (convert U m va c d args buf).trace → i < 64) ↔
      ∀ cv, Conversion.ofChar c = some cv → Fits U va (cv, d, args) := by
  cases hc : Conversion.ofChar c with
  | none =>
    rw [convert_none hc]
    exact iff_of_true (by simp) (by simp)
  | some cv =>
    simp only [Option.some.injEq, forall_eq']
    rw [← within_iff cv d args buf]
    by_cases hin : cv.Within U va d args buf
    · obtain ⟨s, hlen, hs⟩ := exists_source U va args d hE cv ⟨buf, []⟩
      rw [convert_some hc hs hlen hin]
      simp [Conversion.Within, bufSize]
    · rw [convert_over hc hin]
      simp [Conversion.Within, bufSize]

variable (U m va) in
/-- The arguments that a directive leaves. -/
theorem convert_args {c : UInt8} {d : Spec} {args : ℕ} {buf : Mem} {r : ℕ × Mem}
    (h : (convert U m va c d args buf).result = .ok r) :
    r.1 = match Conversion.ofChar c with
      | some cv => args + cv.words
      | none => args := by
  cases hc : Conversion.ofChar c with
  | none =>
    rw [convert_none hc] at h
    cases h
    rfl
  | some cv =>
    simp only [convert, hc, Traced.result_bind, Traced.result_pure] at h
    obtain ⟨buf', -, u, -, h⟩ := h
    cases h
    rfl

theorem vprintf_fits {E : ℕ} (hE : m.read8 E = 0) : ∀ (fuel p args : ℕ) (buf : Mem),
    (∀ i, .buf i ∈ (vprintf U m va fuel p args buf).trace → i < 64) ↔
      ∀ x ∈ conversions m fuel p args, Fits U va x := by
  intro fuel
  induction fuel with
  | zero =>
    intro p args buf
    exact iff_of_true (fun i h => absurd h List.not_mem_nil) fun x h => absurd h List.not_mem_nil
  | succ fuel ih =>
    intro p args buf
    -- what comes before the array is written does not matter
    have hskip : ∀ {t : List PrintfEvent} {y : Printf Unit}, (∀ i, .buf i ∉ t) →
        ((∀ i, .buf i ∈ ((⟨t, .ok ()⟩ : Printf Unit) >>= fun _ => y).trace → i < 64) ↔
          ∀ i, .buf i ∈ y.trace → i < 64) := by
      intro t y ht
      rw [Traced.mk_bind]
      refine forall_congr' fun i => ?_
      rw [List.mem_append]
      exact ⟨fun h hi => h (Or.inr hi), fun h hi => h (hi.resolve_left (ht i))⟩
    by_cases h0 : m.read8 p = 0
    · rw [vprintf_of_zero h0, conversions_of_zero h0]
      simp
    by_cases h37 : m.read8 p = 37
    · by_cases h0' : m.read8 (p + 1) = 0
      · rw [vprintf_of_percent_zero h37 h0', conversions_of_percent_zero h37 h0']
        simp
      by_cases h37' : m.read8 (p + 1) = 37
      · rw [vprintf_of_percent_percent h37 h37', hskip (by simp), ih,
          conversions_of_percent_percent h37 h37']
      rw [vprintf_of_percent_char h37 h0' h37', hskip (by simp)]
      have hnoBuf := noBuf_parseSpec (m := m) fuel (p + 1)
      obtain ⟨t, r, hparse⟩ : ∃ t r, parseSpec m fuel (p + 1) = ⟨t, r⟩ := ⟨_, _, rfl⟩
      rw [hparse] at hnoBuf
      cases r with
      | error e =>
        rw [hparse, conversions_of_percent h37, if_neg h0', if_neg h37', hparse]
        exact iff_of_true (fun i hi => absurd hi (hnoBuf i)) (by simp)
      | ok r =>
        obtain ⟨d, q⟩ := r
        rw [conversions_of_directive h37 h0' h37' (by rw [hparse]), hparse]
        show (∀ i, .buf i ∈ ((⟨t, .ok ()⟩ : Printf Unit) >>= fun _ =>
          (⟨[.format q], .ok ()⟩ : Printf Unit) >>= fun _ =>
            convert U m va (m.read8 q) d args buf >>= fun r' =>
              vprintf U m va fuel (q + 1) r'.1 r'.2).trace → i < 64) ↔ _
        rw [hskip hnoBuf, hskip (by simp)]
        have hfits := convert_fits_iff U va hE (m.read8 q) d args buf
        by_cases hin : ∀ cv, Conversion.ofChar (m.read8 q) = some cv → cv.Within U va d args buf
        · obtain ⟨t', r', hconv, -⟩ := convert_returns U va args buf d hE (m.read8 q) hin
          have hargs := convert_args U m va (by rw [hconv])
          rw [hconv] at hfits
          rw [hconv, Traced.mk_bind]
          have hsplit : (∀ i, .buf i ∈ t' ++ (vprintf U m va fuel (q + 1) r'.1 r'.2).trace →
              i < 64) ↔ (∀ i, .buf i ∈ t' → i < 64) ∧
                ∀ x ∈ conversions m fuel (q + 1) r'.1, Fits U va x := by
            rw [← ih (q + 1) r'.1 r'.2]
            simp only [List.mem_append, or_imp, forall_and]
          refine hsplit.trans ?_
          rw [hfits, hargs]
          cases hc : Conversion.ofChar (m.read8 q) with
          | none => simp
          | some cv => simp
        · -- the run ends behind the array
          push Not at hin
          obtain ⟨cv, hc, hout⟩ := hin
          refine iff_of_false (fun h => ?_) fun h => ?_
          · refine hout ((within_iff cv d args buf).2 (hfits.1 (fun i hi => h i ?_) cv hc))
            exact Traced.mem_trace_bind.2 (Or.inl hi)
          · rw [hc] at h
            exact hout ((within_iff cv d args buf).2 (h _ List.mem_cons_self))
    · rw [vprintf_of_char h0 h37, hskip (by simp), ih, conversions_of_char h0 h37]

/-- What returns has stayed in the array. -/
def Intact (x : Printf α) : Prop := ∀ a, x.result = .ok a → ∀ i, .buf i ∈ x.trace → i < 64

theorem NoBuf.intact {x : Printf α} (h : NoBuf x) : Intact x := fun _ _ i hi => absurd hi (h i)

theorem Intact.bind {x : Printf α} {f : α → Printf β} (hx : Intact x) (hf : ∀ a, Intact (f a)) :
    Intact (x >>= f) := by
  intro b hb i hi
  obtain ⟨a, ha, hb⟩ := Traced.result_bind.1 hb
  rw [Traced.trace_bind ha, List.mem_append] at hi
  exact hi.elim (hx a ha i) (hf a b hb i)

theorem intact_scratch (f : Buf → Buf) (buf : Mem) : Intact (scratch f buf) := by
  intro m' hm i hi
  have hmem : i ∈ (f ⟨buf, []⟩).written := by simpa [scratch] using hi
  simp only [scratch] at hm
  split_ifs at hm with hall
  exact of_decide_eq_true (List.all_eq_true.1 hall i hmem)

theorem noBuf_putString (str : Option (ℕ → UInt8)) (width : Int32) (padRight : Bool)
    (sym : UInt8) : NoBuf (putString str width padRight sym) := by
  have hputc : ∀ c, NoBuf (putc c) := fun c i h => by simp [putc] at h
  have hpad : ∀ sym n, NoBuf (putPadding sym n) := fun sym n i h => by
    simp [putPadding_eq] at h
  have hpure : NoBuf (pure () : Printf Unit) := fun i h => absurd h List.not_mem_nil
  have hchars : ∀ (rd : ℕ → UInt8) (fuel p : ℕ), NoBuf (putChars rd fuel p) := by
    intro rd fuel
    induction fuel with
    | zero => exact fun p i h => absurd h List.not_mem_nil
    | succ fuel ih =>
      intro p
      rw [putChars]
      split_ifs
      · exact (hputc _).bind fun _ => ih _
      · exact hpure
  refine NoBuf.bind (fun i h => absurd h List.not_mem_nil) fun len => ?_
  cases padRight with
  | true => exact (hchars _ _ _).bind fun _ => hpad _ _
  | false => exact (hpad _ _).bind fun _ => (hchars _ _ _).bind fun _ => hpure

theorem intact_vprintf : ∀ (fuel p args : ℕ) (buf : Mem),
    Intact (vprintf U m va fuel p args buf) := by
  intro fuel
  induction fuel with
  | zero => intro p args buf a ha; cases ha
  | succ fuel ih =>
    intro p args buf
    have hpure : Intact (pure () : Printf Unit) := fun _ _ i h => absurd h List.not_mem_nil
    have hputc : ∀ c, Intact (putc c) := fun c _ _ i h => by simp [putc] at h
    refine (noBuf_peek p).intact.bind fun c => ?_
    split_ifs
    · exact hpure
    · exact (hputc _).bind fun _ => ih _ _ _
    · refine (noBuf_peek _).intact.bind fun c => ?_
      split_ifs
      · exact hpure
      · exact (hputc _).bind fun _ => ih _ _ _
      · refine Intact.bind ?_ fun r => ih _ _ _
        refine (noBuf_parseSpec _ _).intact.bind fun r => ?_
        refine (noBuf_peek _).intact.bind fun c => Intact.bind ?_ fun r' _ _ i h =>
          absurd h List.not_mem_nil
        unfold convert
        cases Conversion.ofChar c with
        | none =>
          exact (hputc _).bind fun _ => (hputc _).bind fun _ _ _ i h => absurd h List.not_mem_nil
        | some cv =>
          exact (intact_scratch _ _).bind fun _ => (noBuf_putString _ _ _ _).intact.bind
            fun _ _ _ i h => absurd h List.not_mem_nil

/-- A run that returns comes to no conversion that leaves the array. -/
theorem fits_of_returns (buf : Mem) {E : ℕ} (hE : m.read8 E = 0) {fuel p args : ℕ}
    (h : (vprintf U m va fuel p args buf).result = .ok ()) :
    ∀ x ∈ conversions m fuel p args, Fits U va x :=
  (vprintf_fits hE fuel p args buf).1 (intact_vprintf fuel p args buf () h)

end Array

/-- Every conversion of a run stays in the 64 characters of `buf` exactly when no `%f` that the run
comes to has a text of more than 63 characters. -/
theorem vprintf_fits_iff (U : FloatUnit) (m : Mem) (va : ℕ → UInt32) {p : ℕ} {s : CString}
    (h : HoldsString m p s.bytes) (args : ℕ) (buf : Mem) :
    (∀ fuel i, .buf i ∈ (vprintf U m va fuel p args buf).trace → i < 64) ↔
      ∀ fuel, ∀ x ∈ conversions m fuel p args, Fits U va x :=
  forall_congr' fun fuel => vprintf_fits (spells_read8.2 h).end fuel p args buf

/-- The format `%.100f`, from address 16 on. -/
def longPrecision : Mem := fun x => if x < 16 then 0 else (ascii "%.100f").getD (x - 16) 0

def longPrecisionText : CString := ⟨ascii "%.100f", by decide⟩

/-- The words of `1.0`. -/
def oneArg (k : ℕ) : UInt32 := if k = 1 then 0x3ff00000 else 0

theorem longPrecision_held : HoldsString longPrecision 16 longPrecisionText.bytes := by decide

theorem longPrecision_conversions :
    (Conversion.f, (⟨false, 32, 0, 100⟩ : Spec), 0) ∈ conversions longPrecision 7 16 0 := by
  decide

theorem vprintf_fits_iff_longPrecision : ¬ ∀ fuel i,
    .buf i ∈ (vprintf exactUnit longPrecision oneArg fuel 16 0 fun _ => 0).trace → i < 64 :=
  fun h => absurd ((vprintf_fits_iff exactUnit longPrecision oneArg longPrecision_held 0
    fun _ => 0).1 h 7 _ longPrecision_conversions).prec_le (by decide)

theorem longPrecision_overruns : ¬ ∀ (U : FloatUnit) (m : Mem) (va : ℕ → UInt32) (p : ℕ)
    (s : CString), HoldsString m p s.bytes → ∀ buf fuel i,
      .buf i ∈ (vprintf U m va fuel p 0 buf).trace → i < 64 := by
  intro h
  have hfits := (vprintf_fits (spells_read8.2 longPrecision_held).end 7 16 0 (fun _ => 0)).1
    (h exactUnit longPrecision oneArg 16 longPrecisionText longPrecision_held (fun _ => 0) 7)
  exact absurd (hfits _ longPrecision_conversions).prec_le (by decide)

/-! ## The terminator -/

/-- The format ends inside a directive, behind flags, a width or a precision. -/
inductive Truncated : List UInt8 → Prop
  | literal {c : UInt8} {s : List UInt8} : c ≠ 37 → Truncated s → Truncated (c :: s)
  | escape {s : List UInt8} : Truncated s → Truncated (37 :: 37 :: s)
  | directive {c c' : UInt8} {s s' : List UInt8} : c ≠ 37 → (readSpec (c :: s)).2 = c' :: s' →
      Truncated s' → Truncated (37 :: c :: s)
  | here {c : UInt8} {s : List UInt8} : c ≠ 37 → (readSpec (c :: s)).2 = [] →
      Truncated (37 :: c :: s)

theorem truncated_cons {c : UInt8} {s : List UInt8} (hc : c ≠ 37) :
    Truncated (c :: s) ↔ Truncated s := by
  refine ⟨fun h => ?_, .literal hc⟩
  cases h with
  | literal _ h => exact h
  | _ => exact absurd rfl hc

theorem truncated_escape {s : List UInt8} : Truncated (37 :: 37 :: s) ↔ Truncated s := by
  refine ⟨fun h => ?_, .escape⟩
  cases h with
  | literal h => exact absurd rfl h
  | escape h => exact h
  | directive h => exact absurd rfl h
  | here h => exact absurd rfl h

theorem truncated_directive {c : UInt8} {s : List UInt8} (hc : c ≠ 37) :
    Truncated (37 :: c :: s) ↔
      (readSpec (c :: s)).2 = [] ∨ Truncated (readSpec (c :: s)).2.tail := by
  constructor
  · intro h
    cases h with
    | literal h => exact absurd rfl h
    | escape => exact absurd rfl hc
    | directive _ hcons h => exact Or.inr (by rwa [hcons])
    | here _ hnil => exact Or.inl hnil
  · rintro (hnil | h)
    · exact .here hc hnil
    · cases hs : (readSpec (c :: s)).2 with
      | nil => exact .here hc hs
      | cons c' s' => exact .directive hc hs (by rwa [hs] at h)

section Terminator

variable {U : FloatUnit} {m : Mem} {va : ℕ → UInt32} {E : ℕ}

theorem Cursor.zero {p : ℕ} {s : List UInt8} (h : Cursor m E p s) : m.read8 E = 0 :=
  h.ends ▸ h.spells.end

/-- What is left of a string is a string. -/
theorem noNul_of_suffix {s s' : List UInt8} (h : s' <:+ s) (hnul : 0 ∉ s) : 0 ∉ s' :=
  fun h0 => hnul (h.subset h0)

/-- What a run comes to behind a directive. -/
theorem conversions_of_cursor {fuel p q args : ℕ} {c : UInt8} {s : List UInt8}
    (h : Cursor m E p (37 :: c :: s)) (h0 : c ≠ 0) (h37 : c ≠ 37)
    (hspec : (parseSpec m fuel (p + 1)).result = .ok ((readSpec (c :: s)).1, q))
    (hq : Cursor m E q (readSpec (c :: s)).2) :
    conversions m (fuel + 1) p args =
      match Conversion.ofChar ((readSpec (c :: s)).2.headD 0) with
      | some cv => (cv, (readSpec (c :: s)).1, args) :: conversions m fuel (q + 1) (args + cv.words)
      | none => conversions m fuel (q + 1) args := by
  have hnext : m.read8 (p + 1) = c := (h.tail (List.cons_ne_nil _ _)).read
  rw [conversions_of_directive h.read (hnext ▸ h0) (hnext ▸ h37) hspec, hq.read]

variable (U va) in
/-- A directive whose conversion stays in the array: it converts an argument, and the run goes on
with the conversions behind it. -/
theorem vprintf_directive_fits {fuel p args : ℕ} (buf : Mem) {c : UInt8} {s : List UInt8}
    (h : Cursor m E p (37 :: c :: s)) (h0 : c ≠ 0) (h37 : c ≠ 37) (hfuel : s.length + 1 < fuel)
    (hfit : ∀ x ∈ conversions m (fuel + 1) p args, Fits U va x) :
    ∃ t q, ∃ r : ℕ × Mem, (∀ a, .format a ∈ t → a ≤ E) ∧ Cursor m E q (readSpec (c :: s)).2 ∧
      (∀ x ∈ conversions m fuel (q + 1) r.1, Fits U va x) ∧
      vprintf U m va (fuel + 1) p args buf = ((⟨t, .ok ()⟩ : Printf Unit) >>= fun _ =>
        vprintf U m va fuel (q + 1) r.1 r.2) := by
  obtain ⟨t, q, ht, hq, hspec, heq⟩ := vprintf_directive U va args fuel buf h h0 h37 hfuel
  rw [conversions_of_cursor h h0 h37 hspec hq] at hfit
  obtain ⟨t', r, hconv, ht'⟩ := convert_returns U va args buf (readSpec (c :: s)).1 h.zero
    ((readSpec (c :: s)).2.headD 0) fun cv hc => (within_iff cv _ args buf).2 (by
      rw [hc] at hfit
      exact hfit _ List.mem_cons_self)
  refine ⟨t ++ t', q, r, fun a ha => ?_, hq, ?_, ?_⟩
  · obtain ha | ha := List.mem_append.1 ha
    · obtain ⟨a', hle', e⟩ := ht _ ha
      cases e
      exact hle'
    · exact absurd ha (ht' a)
  · rw [convert_args U m va (by rw [hconv])]
    cases hc : Conversion.ofChar ((readSpec (c :: s)).2.headD 0) with
    | none => rwa [hc] at hfit
    | some cv =>
      rw [hc] at hfit
      exact fun x hx => hfit x (List.mem_cons_of_mem _ hx)
  · rw [heq, hconv, Traced.mk_bind, Traced.mk_bind, Traced.mk_bind, List.append_assoc]

variable (U va) in
/-- A format that is not truncated is read to its end. -/
theorem vprintf_stops : ∀ (fuel args : ℕ) (buf : Mem) {s : List UInt8} {p : ℕ}, ¬ Truncated s →
    0 ∉ s → Cursor m E p s → s.length < fuel →
      (∀ x ∈ conversions m fuel p args, Fits U va x) →
        ∃ t, vprintf U m va fuel p args buf = ⟨t, .ok ()⟩ ∧ ∀ a, .format a ∈ t → a ≤ E := by
  intro fuel
  induction fuel with
  | zero => intro args buf s p _ _ _ hfuel; exact absurd hfuel (Nat.not_lt_zero _)
  | succ fuel ih =>
    intro args buf s p hs hnul h hfuel hfit
    match s with
    | [] =>
      refine ⟨_, vprintf_end h, fun a ha => ?_⟩
      simp only [List.mem_singleton, PrintfEvent.format.injEq] at ha
      exact ha ▸ h.le
    | c :: s =>
      have htail : Cursor m E (p + 1) s := h.tail (List.cons_ne_nil c s)
      have hle : p + 1 ≤ E := htail.le
      have hread : m.read8 p = c := h.read
      rw [List.mem_cons, not_or] at hnul
      rw [List.length_cons] at hfuel
      by_cases hc : c = 37
      · subst hc
        match s with
        | [] =>
          refine ⟨_, vprintf_percentEnd h, fun a ha => ?_⟩
          simp only [List.mem_cons, PrintfEvent.format.injEq, List.not_mem_nil, or_false] at ha
          omega
        | c :: s =>
          rw [List.mem_cons, not_or] at hnul
          rw [List.length_cons] at hfuel
          by_cases hc : c = 37
          · subst hc
            rw [conversions_of_percent_percent hread htail.read] at hfit
            obtain ⟨t, heq, ht⟩ := ih args buf (fun hs' => hs (.escape hs'))
              hnul.2.2 (htail.tail (List.cons_ne_nil _ s)) (by omega) hfit
            refine ⟨_, by rw [vprintf_escape h, heq, Traced.mk_bind], fun a ha => ?_⟩
            simp only [List.cons_append, List.nil_append, List.mem_cons, PrintfEvent.format.injEq,
              reduceCtorEq, false_or] at ha
            obtain rfl | rfl | ha := ha
            · exact h.le
            · exact hle
            · exact ht a ha
          · obtain ⟨t, q, r, ht, hq, hfit', heq⟩ := vprintf_directive_fits U va buf h
              (Ne.symm hnul.2.1) hc (by omega) hfit
            have hrest : (readSpec (c :: s)).2 ≠ [] := fun e => hs (.here hc e)
            obtain ⟨c', s', hcons⟩ := List.exists_cons_of_ne_nil hrest
            have hsuffix : c' :: s' <:+ c :: s := hcons ▸ readSpec_suffix (c :: s)
            have hlen := hsuffix.length_le
            rw [List.length_cons, List.length_cons] at hlen
            have hnul' : 0 ∉ c' :: s' :=
              noNul_of_suffix hsuffix (by rw [List.mem_cons, not_or]; exact hnul.2)
            rw [hcons] at hq
            obtain ⟨t', heq', ht'⟩ := ih r.1 r.2
              (fun hs' => hs (.directive hc hcons hs'))
              (fun h0 => hnul' (List.mem_cons_of_mem c' h0)) (hq.tail (List.cons_ne_nil _ _))
              (by omega) hfit'
            refine ⟨t ++ t', by rw [heq, heq', Traced.mk_bind], fun a ha => ?_⟩
            exact (List.mem_append.1 ha).elim (ht a) (ht' a)
      · rw [conversions_of_char (hread ▸ Ne.symm hnul.1) (hread ▸ hc)] at hfit
        obtain ⟨t, heq, ht⟩ := ih args buf
          (fun hs' => hs (.literal hc hs')) hnul.2 htail (by omega) hfit
        refine ⟨_, by rw [vprintf_literal h (Ne.symm hnul.1) hc, heq, Traced.mk_bind],
          fun a ha => ?_⟩
        simp only [List.cons_append, List.nil_append, List.mem_cons, PrintfEvent.format.injEq,
          reduceCtorEq, false_or] at ha
        obtain rfl | ha := ha
        · exact h.le
        · exact ht a ha

variable (U va) in
/-- A truncated one is read behind its end, unless a conversion leaves the array before. -/
theorem vprintf_overreads {s : List UInt8} (hs : Truncated s) : ∀ (fuel args : ℕ) (buf : Mem) {p : ℕ},
    0 ∉ s → Cursor m E p s → s.length < fuel →
      (∀ x ∈ conversions m fuel p args, Fits U va x) →
        .format (E + 1) ∈ (vprintf U m va fuel p args buf).trace := by
  induction hs with
  | @literal c s hc _ ih =>
    intro fuel args buf p hnul h hfuel hfit
    rw [List.mem_cons, not_or] at hnul
    obtain ⟨fuel, rfl⟩ := Nat.exists_eq_succ_of_ne_zero (show fuel ≠ 0 by omega)
    have hread : m.read8 p = c := h.read
    rw [Nat.succ_eq_add_one] at hfit ⊢
    rw [conversions_of_char (hread ▸ Ne.symm hnul.1) (hread ▸ hc)] at hfit
    rw [vprintf_literal h (Ne.symm hnul.1) hc, Traced.mk_bind]
    exact List.mem_append_right _
      (ih _ args buf hnul.2 (h.tail (List.cons_ne_nil _ _)) (by simpa using hfuel) hfit)
  | escape _ ih =>
    intro fuel args buf p hnul h hfuel hfit
    simp only [List.mem_cons, not_or] at hnul
    rw [List.length_cons, List.length_cons] at hfuel
    obtain ⟨fuel, rfl⟩ := Nat.exists_eq_succ_of_ne_zero (show fuel ≠ 0 by omega)
    have htail := h.tail (List.cons_ne_nil _ _)
    rw [Nat.succ_eq_add_one] at hfit ⊢
    rw [conversions_of_percent_percent h.read htail.read] at hfit
    rw [vprintf_escape h, Traced.mk_bind]
    exact List.mem_append_right _ (ih _ args buf hnul.2.2
      (htail.tail (List.cons_ne_nil _ _)) (by omega) hfit)
  | @directive c c' s s' hc hcons _ ih =>
    intro fuel args buf p hnul h hfuel hfit
    rw [List.length_cons, List.length_cons] at hfuel
    simp only [List.mem_cons, not_or] at hnul
    obtain ⟨fuel, rfl⟩ := Nat.exists_eq_succ_of_ne_zero (show fuel ≠ 0 by omega)
    obtain ⟨t, q, r, -, hq, hfit', heq⟩ := vprintf_directive_fits U va buf h
      (Ne.symm hnul.2.1) hc (by omega) hfit
    have hsuffix : c' :: s' <:+ c :: s := hcons ▸ readSpec_suffix (c :: s)
    have hlen := hsuffix.length_le
    rw [List.length_cons, List.length_cons] at hlen
    rw [hcons] at hq
    rw [heq, Traced.mk_bind]
    refine List.mem_append_right _ (ih _ _ _ (fun h0 => ?_) (hq.tail (List.cons_ne_nil _ _))
      (by omega) hfit')
    obtain h0 | h0 := List.mem_cons.1 (hsuffix.subset (List.mem_cons_of_mem _ h0))
    · exact hnul.2.1 h0
    · exact hnul.2.2 h0
  | @here c s hc hnil =>
    intro fuel args buf p hnul h hfuel hfit
    rw [List.length_cons, List.length_cons] at hfuel
    simp only [List.mem_cons, not_or] at hnul
    obtain ⟨fuel, rfl⟩ := Nat.exists_eq_succ_of_ne_zero (show fuel ≠ 0 by omega)
    obtain ⟨t, q, r, -, hq, -, heq⟩ := vprintf_directive_fits U va buf h
      (Ne.symm hnul.2.1) hc (by omega) hfit
    -- the terminator was taken for the character of the conversion
    rw [hnil] at hq
    have hqE : q = E := by have := hq.ends; simpa using this
    rw [heq, Traced.mk_bind]
    refine List.mem_append_right _ ?_
    obtain ⟨fuel, rfl⟩ := Nat.exists_eq_succ_of_ne_zero (show fuel ≠ 0 by omega)
    rw [hqE, Nat.succ_eq_add_one, vprintf, peek_eq, Traced.mk_bind]
    exact List.mem_append_left _ (List.mem_singleton_self _)

end Terminator

/-- `_vprintf` returns without having read a character behind the terminator of its format exactly
when the format does not end inside a directive and no conversion leaves the array. -/
theorem vprintf_stops_iff (U : FloatUnit) (m : Mem) (va : ℕ → UInt32) {p : ℕ} {s : CString}
    (h : HoldsString m p s.bytes) (args : ℕ) (buf : Mem) :
    (∃ n, ∀ fuel ≥ n, (vprintf U m va fuel p args buf).result = .ok () ∧
      ∀ a, .format a ∈ (vprintf U m va fuel p args buf).trace → a ≤ p + s.bytes.length) ↔
      ¬ Truncated s.bytes ∧ ∀ fuel, ∀ x ∈ conversions m fuel p args, Fits U va x := by
  have hcur : Cursor m (p + s.bytes.length) p s.bytes := ⟨spells_read8.2 h, rfl⟩
  constructor
  · rintro ⟨n, hn⟩
    have hfits : ∀ fuel, ∀ x ∈ conversions m fuel p args, Fits U va x := fun fuel x hx =>
      fits_of_returns _ hcur.zero (hn _ (le_max_left n fuel)).1 x
        (conversions_mono hx (le_max_right n fuel))
    refine ⟨fun hs => ?_, hfits⟩
    have hover := vprintf_overreads U va hs (max n (s.bytes.length + 1)) args buf s.noNul hcur
      (by omega) (hfits _)
    have hle := (hn _ (le_max_left _ _)).2 _ hover
    omega
  · rintro ⟨hs, hfits⟩
    refine ⟨s.bytes.length + 1, fun fuel hfuel => ?_⟩
    obtain ⟨t, heq, ht⟩ := vprintf_stops U va fuel args buf hs s.noNul hcur (by omega) (hfits _)
    rw [heq]
    exact ⟨rfl, ht⟩

/-- The format `%5`, from address 16 on. -/
def widthOnly : Mem := fun x => if x < 16 then 0 else (ascii "%5").getD (x - 16) 0

def widthOnlyText : CString := ⟨ascii "%5", by decide⟩

theorem widthOnly_held : HoldsString widthOnly 16 widthOnlyText.bytes := by decide

theorem widthOnly_truncated : Truncated widthOnlyText.bytes := .here (by decide) (by decide)

theorem vprintf_stops_iff_widthOnly : ¬ ∃ n, ∀ fuel ≥ n,
    (vprintf exactUnit widthOnly (fun _ => 0) fuel 16 0 fun _ => 0).result = .ok () ∧
      ∀ a, .format a ∈ (vprintf exactUnit widthOnly (fun _ => 0) fuel 16 0 fun _ => 0).trace →
        a ≤ 18 :=
  fun h => ((vprintf_stops_iff exactUnit widthOnly (fun _ => 0) widthOnly_held 0 fun _ => 0).1 h).1
    widthOnly_truncated

theorem widthOnly_reads_on : ¬ ∀ (U : FloatUnit) (m : Mem) (va : ℕ → UInt32) (p : ℕ) (s : CString),
    HoldsString m p s.bytes → ∀ buf, ∃ n, ∀ fuel ≥ n,
      (vprintf U m va fuel p 0 buf).result = .ok () ∧
        ∀ a, .format a ∈ (vprintf U m va fuel p 0 buf).trace → a ≤ p + s.bytes.length := by
  intro h
  obtain ⟨n, hn⟩ := h exactUnit widthOnly (fun _ => 0) 16 widthOnlyText widthOnly_held fun _ => 0
  have hover := vprintf_overreads exactUnit (fun _ => 0) widthOnly_truncated (max n 3) 0
    (fun _ => 0) widthOnlyText.noNul ⟨spells_read8.2 widthOnly_held, rfl⟩
    (lt_of_lt_of_le (by decide) (le_max_right n 3))
    (fits_of_returns _ (spells_read8.2 widthOnly_held).end (hn _ (le_max_left n 3)).1)
  have hle := (hn _ (le_max_left n 3)).2 _ hover
  omega

end Ospp
