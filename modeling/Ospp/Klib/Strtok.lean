import Ospp.Klib.CString
import Ospp.Lib.Runs

/-!
# Tokens

`strchr` and `strtok` from `klibcpp/cstring.cpp`. Between two calls `strtok` keeps in `last` where
it goes on; the string itself it cuts with a zero byte behind each token.

A call skips a gap of delimiters and then a run of other characters (`strtok_spec`), so the calls
until the first null pointer return the maximal runs, in order (`tokenLoop_spec`). What is left of
the string is always untouched: all bytes written are in front of `last`.
-/

namespace Ospp

/-! ## The code -/

/-- The loop of `strchr`. -/
def strchrFrom (rd : ℕ → UInt8) (ch : UInt8) : ℕ → ℕ → K ℕ
  | 0, _ => .error .diverged
  | fuel + 1, str =>
    if rd str ≠ 0 then
      if rd str = ch then .ok str else strchrFrom rd ch fuel (str + 1)
    else if ch = 0 then .ok str
    else .ok 0

/-- `strchr`; a null pointer is 0. -/
def strchr (rd : ℕ → UInt8) (str : ℕ) (ch : UInt8) : K ℕ := strchrFrom rd ch 4294967296 str

/-- The loops of `strtok`: `while (*p && strchr(delim, *p)) p++`, and the same with `!strchr`. -/
def spanWhile (rd : ℕ → UInt8) (delim : ℕ) (found : Bool) : ℕ → ℕ → K ℕ
  | 0, _ => .error .diverged
  | fuel + 1, p =>
    if rd p = 0 then .ok p
    else do
      let r ← strchr rd delim (rd p)
      if (r ≠ 0) = found then spanWhile rd delim found fuel (p + 1) else return p

/-- The memory, and the static variable. -/
structure StrtokState where
  mem : Mem
  last : ℕ

def strtok (s : StrtokState) (str delim : ℕ) : K (StrtokState × ℕ) :=
  if str = 0 ∧ s.last = 0 then .ok (s, 0)
  else do
    let last := if str ≠ 0 then str else s.last
    let token ← spanWhile s.mem.read8 delim true 4294967296 last
    if s.mem.read8 token = 0 then return (⟨s.mem, 0⟩, 0)
    let stop ← spanWhile s.mem.read8 delim false 4294967296 token
    if s.mem.read8 stop ≠ 0 then return (⟨s.mem.write8 stop 0, stop + 1⟩, token)
    return (⟨s.mem, 0⟩, token)

/-- `for (t = strtok(str, delim); t; t = strtok(nullptr, delim))`, for at most `fuel` calls; the
delimiters of call `k` stand at `delim k`. -/
def tokenLoop (delim : ℕ → ℕ) : ℕ → ℕ → StrtokState → ℕ → K (List ℕ × StrtokState)
  | 0, _, _, _ => .error .diverged
  | fuel + 1, k, s, str => do
    let (s, token) ← strtok s str (delim k)
    if token = 0 then return ([], s)
    let (tokens, s) ← tokenLoop delim fuel (k + 1) s 0
    return (token :: tokens, s)

/-- In each of the first `fuel` calls the delimiter argument is the string `d`. -/
def DelimHeld (d : CString) (delim : ℕ → ℕ) : ℕ → ℕ → StrtokState → ℕ → Prop
  | 0, _, _, _ => True
  | fuel + 1, k, s, str =>
    Spells s.mem.read8 (delim k) d.bytes ∧
      ∀ s' token, strtok s str (delim k) = .ok (s', token) → token ≠ 0 →
        DelimHeld d delim fuel (k + 1) s' 0

/-! ## `strchr` -/

theorem strchrFrom_spec {rd : ℕ → UInt8} {ch : UInt8} (hch : ch ≠ 0) : ∀ {d : List UInt8}
    {fuel str : ℕ}, 0 ∉ d → Spells rd str d → 0 < str → d.length < fuel →
      ∃ r, strchrFrom rd ch fuel str = .ok r ∧ (r ≠ 0 ↔ ch ∈ d) := by
  intro d
  induction d with
  | nil =>
    intro fuel str _ h hstr hfuel
    obtain ⟨fuel, rfl⟩ := Nat.exists_eq_succ_of_ne_zero (Nat.ne_of_gt hfuel)
    have hend : rd str = 0 := h
    refine ⟨0, ?_, by simp⟩
    rw [strchrFrom, if_neg (by simp [hend]), if_neg hch]
  | cons c cs ih =>
    intro fuel str hnul h hstr hfuel
    obtain ⟨fuel, rfl⟩ := Nat.exists_eq_succ_of_ne_zero (show fuel ≠ 0 by omega)
    obtain ⟨hc, hcs⟩ := h
    rw [List.mem_cons, not_or] at hnul
    rw [strchrFrom, hc, if_pos (Ne.symm hnul.1)]
    by_cases heq : c = ch
    · rw [if_pos heq]
      exact ⟨str, rfl, by simp [heq, Nat.ne_of_gt hstr]⟩
    · rw [if_neg heq]
      obtain ⟨r, hr, hiff⟩ := ih hnul.2 hcs (Nat.succ_pos str) (by simpa using hfuel)
      refine ⟨r, hr, hiff.trans ?_⟩
      rw [List.mem_cons, or_iff_right (fun h => heq h.symm)]

theorem strchr_spec {m : Mem} {d : CString} {delim : ℕ} (hd : Spells m.read8 delim d.bytes)
    (hdelim : 0 < delim) {ch : UInt8} (hch : ch ≠ 0) :
    ∃ r, strchr m.read8 delim ch = .ok r ∧ (r ≠ 0 ↔ ch ∈ d.bytes) :=
  strchrFrom_spec hch d.noNul hd hdelim (spells_read8.1 hd).length_lt

/-! ## One call -/

section Call

variable {s d : CString} {m : Mem} {p k delim : ℕ}

/-- Position `i` of the string holds no delimiter. -/
def NonDelim (s d : CString) (i : ℕ) : Prop := s.bytes.getD i 0 ∉ d.bytes

instance (s d : CString) : DecidablePred (NonDelim s d) :=
  fun _ => inferInstanceAs (Decidable (_ ∉ _))

/-- From position `k` on the memory at `p` is still that of the string. -/
def Rest (s : CString) (m : Mem) (p k : ℕ) : Prop :=
  ∀ i, k ≤ i → i ≤ s.bytes.length → m.read8 (p + i) = s.bytes.getD i 0

theorem Rest.zero_iff (h : Rest s m p k) {i : ℕ} (hk : k ≤ i) (hi : i ≤ s.bytes.length) :
    m.read8 (p + i) = 0 ↔ i = s.bytes.length := by
  rw [h i hk hi]
  constructor
  · intro hzero
    by_contra hne
    have hlt : i < s.bytes.length := by omega
    rw [List.getD_eq_getElem _ _ hlt] at hzero
    exact s.noNul (hzero ▸ List.getElem_mem hlt)
  · intro heq
    rw [List.getD_eq_default _ _ (by omega)]

/-- A loop stops at the first character of the other kind, or at the end. -/
theorem spanWhile_spec (hd : Spells m.read8 delim d.bytes) (hdelim : 0 < delim) (found : Bool) :
    ∀ {fuel k : ℕ}, Rest s m p k → k ≤ s.bytes.length → s.bytes.length - k < fuel →
      ∃ j, spanWhile m.read8 delim found fuel (p + k) = .ok (p + j) ∧ k ≤ j ∧
        j ≤ s.bytes.length ∧ (∀ i, k ≤ i → i < j → (NonDelim s d i ↔ found = false)) ∧
        (j = s.bytes.length ∨ ¬ (NonDelim s d j ↔ found = false)) := by
  intro fuel
  induction fuel with
  | zero => intro k _ _ hfuel; omega
  | succ fuel ih =>
    intro k hrest hk hfuel
    rcases Nat.eq_or_lt_of_le hk with heq | hlt
    · refine ⟨k, ?_, Nat.le_refl k, hk, fun i hi hlt => absurd hlt (by omega), .inl heq⟩
      rw [spanWhile, if_pos ((hrest.zero_iff (Nat.le_refl k) hk).2 heq)]
    · have hne : m.read8 (p + k) ≠ 0 :=
        mt (hrest.zero_iff (Nat.le_refl k) hk).1 (by omega)
      obtain ⟨r, hr, hiff⟩ := strchr_spec hd hdelim hne
      rw [hrest k (Nat.le_refl k) hk] at hiff
      have hkind : (r ≠ 0) = found ↔ (NonDelim s d k ↔ found = false) := by
        unfold NonDelim
        rw [← hiff]
        cases found <;> simp
      rw [spanWhile, if_neg hne, hr]
      by_cases hgo : (r ≠ 0) = found
      · obtain ⟨j, hj, hkj, hjn, hall, hstop⟩ :=
          ih (fun i hi hin => hrest i (by omega) hin) hlt (by omega)
        refine ⟨j, ?_, by omega, hjn, fun i hi hij => ?_, hstop⟩
        · change (if (r ≠ 0) = found then _ else _) = _
          rw [if_pos hgo]
          exact hj
        · rcases Nat.eq_or_lt_of_le hi with rfl | hgt
          · exact hkind.1 hgo
          · exact hall i hgt hij
      · refine ⟨k, ?_, Nat.le_refl k, hk, fun i hi hlt => absurd hlt (by omega),
          .inr (mt hkind.2 hgo)⟩
        change (if (r ≠ 0) = found then _ else _) = _
        rw [if_neg hgo]
        rfl

/-- What a call does that goes on at position `k`: there may be no token left, or one that ends with
the string, or one that ends in front of a delimiter. -/
theorem strtok_spec {st : StrtokState} {str : ℕ} (hd : Spells st.mem.read8 delim d.bytes)
    (hdelim : 0 < delim) (hstart : (if str ≠ 0 then str else st.last) = p + k) (hp : 0 < p)
    (hrest : Rest s st.mem p k) (hk : k ≤ s.bytes.length) (hn : s.bytes.length < 4294967296) :
    ((∀ i, k ≤ i → i < s.bytes.length → ¬ NonDelim s d i) ∧
        strtok st str delim = .ok (⟨st.mem, 0⟩, 0)) ∨
      ∃ a b, k ≤ a ∧ a < b ∧ b ≤ s.bytes.length ∧ (∀ i, k ≤ i → i < a → ¬ NonDelim s d i) ∧
        (∀ i, a ≤ i → i < b → NonDelim s d i) ∧
        (b = s.bytes.length ∧ strtok st str delim = .ok (⟨st.mem, 0⟩, p + a) ∨
          b < s.bytes.length ∧ ¬ NonDelim s d b ∧
            strtok st str delim = .ok (⟨st.mem.write8 (p + b) 0, p + b + 1⟩, p + a)) := by
  have hcall : ¬ (str = 0 ∧ st.last = 0) := by
    rintro ⟨hstr, hlast⟩
    rw [if_neg (not_not.2 hstr), hlast] at hstart
    omega
  obtain ⟨a, htoken, hka, han, hskip, hatoken⟩ :=
    spanWhile_spec hd hdelim true hrest hk (show _ < 4294967296 by omega)
  have hgap : ∀ i, k ≤ i → i < a → ¬ NonDelim s d i := fun i hi hia => by
    simpa using hskip i hi hia
  rcases Nat.eq_or_lt_of_le han with hend | hlt
  · have hzero : st.mem.read8 (p + a) = 0 := (hrest.zero_iff hka han).2 hend
    refine .inl ⟨fun i hi hin => hgap i hi (by omega), ?_⟩
    unfold strtok
    rw [if_neg hcall, hstart]
    dsimp only
    rw [htoken]
    exact if_pos hzero
  · have hne : st.mem.read8 (p + a) ≠ 0 := mt (hrest.zero_iff hka han).1 (by omega)
    have hNa : NonDelim s d a := by
      simpa using hatoken.resolve_left (by omega)
    obtain ⟨b, hstop, hab, hbn, hall, hbstop⟩ :=
      spanWhile_spec hd hdelim false (fun i hi hin => hrest i (by omega) hin) han
        (show _ < 4294967296 by omega)
    have hrun : ∀ i, a ≤ i → i < b → NonDelim s d i := fun i hi hib => by
      simpa using hall i hi hib
    have hlt' : a < b := by
      rcases Nat.eq_or_lt_of_le hab with rfl | hgt
      · exact absurd (iff_of_true hNa rfl) (hbstop.resolve_left (by omega))
      · exact hgt
    have hcode : strtok st str delim =
        if st.mem.read8 (p + b) ≠ 0 then .ok (⟨st.mem.write8 (p + b) 0, p + b + 1⟩, p + a)
        else .ok (⟨st.mem, 0⟩, p + a) := by
      unfold strtok
      rw [if_neg hcall, hstart]
      dsimp only
      rw [htoken]
      change (if st.mem.read8 (p + a) = 0 then _ else _) = _
      rw [if_neg hne, hstop]
      rfl
    refine .inr ⟨a, b, hka, hlt', hbn, hgap, hrun, ?_⟩
    rcases Nat.eq_or_lt_of_le hbn with hbend | hblt
    · refine .inl ⟨hbend, hcode.trans (if_neg ?_)⟩
      exact not_not.2 ((hrest.zero_iff (by omega) hbn).2 hbend)
    · refine .inr ⟨hblt, ?_, hcode.trans (if_pos ?_)⟩
      · simpa using hbstop.resolve_left (by omega)
      · exact mt (hrest.zero_iff (by omega) hbn).1 (by omega)

end Call

/-! ## The calls until there is no token left -/

section Loop

variable {s d : CString} {p : ℕ}

/-- The byte behind a token is a delimiter that has been overwritten. -/
def Cut (s : CString) (p : ℕ) (L : List (ℕ × ℕ)) (a : ℕ) : Prop :=
  ∃ x ∈ L, x.1 + x.2 < s.bytes.length ∧ a = p + (x.1 + x.2)

instance (s : CString) (p : ℕ) (L : List (ℕ × ℕ)) (a : ℕ) : Decidable (Cut s p L a) :=
  inferInstanceAs (Decidable (∃ x ∈ L, _ ∧ _))

theorem cut_cons {x : ℕ × ℕ} {L : List (ℕ × ℕ)} {a : ℕ} :
    Cut s p (x :: L) a ↔ (x.1 + x.2 < s.bytes.length ∧ a = p + (x.1 + x.2)) ∨ Cut s p L a := by
  unfold Cut
  simp only [List.mem_cons, exists_eq_or_imp]

/-- The calls from position `k` on return the runs from there, and cut behind them. -/
theorem tokenLoop_spec (hp : 0 < p) (hn : p + s.bytes.length < 4294967296) {delim : ℕ → ℕ}
    (hdelim : ∀ j, 0 < delim j) {fuel k j : ℕ} {st : StrtokState} {str : ℕ}
    (hheld : DelimHeld d delim fuel j st str)
    (hstart : (if str ≠ 0 then str else st.last) = p + k) (hrest : Rest s st.mem p k)
    (hk : k ≤ s.bytes.length) (hgap : k = 0 ∨ ¬ NonDelim s d (k - 1))
    (hfuel : s.bytes.length - k < fuel) :
    ∃ L st', tokenLoop delim fuel j st str = .ok (L.map (fun x => p + x.1), st') ∧
      RunsFrom (NonDelim s d) s.bytes.length k L ∧
      ∀ a, st'.mem a = if Cut s p L a then 0 else st.mem a := by
  induction fuel generalizing k j st str with
  | zero => omega
  | succ fuel ih =>
    obtain ⟨hd, hnext⟩ := hheld
    rcases strtok_spec hd (hdelim j) hstart hp hrest hk (by omega) with ⟨hall, hcall⟩ |
      ⟨a, b, hka, hab, hbn, hskip, hrun, ⟨hend, hcall⟩ | ⟨hlt, hstop, hcall⟩⟩
    · -- no token is left
      refine ⟨[], ⟨st.mem, 0⟩, ?_, runsFrom_nil hall, fun a => ?_⟩
      · rw [tokenLoop, hcall]
        rfl
      · exact (if_neg fun ⟨_, hx, _⟩ => absurd hx List.not_mem_nil).symm
    · -- the last token ends with the string, and the next call returns at once
      obtain ⟨fuel, rfl⟩ := Nat.exists_eq_succ_of_ne_zero (show fuel ≠ 0 by omega)
      have hlast : tokenLoop delim (fuel + 1) (j + 1) ⟨st.mem, 0⟩ 0 = .ok ([], ⟨st.mem, 0⟩) := by
        have hnull : strtok ⟨st.mem, 0⟩ 0 (delim (j + 1)) = .ok (⟨st.mem, 0⟩, 0) :=
          if_pos ⟨rfl, rfl⟩
        rw [tokenLoop, hnull]
        rfl
      refine ⟨[(a, b - a)], ⟨st.mem, 0⟩, ?_, ?_, fun x => ?_⟩
      · rw [tokenLoop, hcall]
        change (if p + a = 0 then _ else _) = _
        rw [if_neg (by omega), hlast]
        rfl
      · exact .cons hgap hka hskip hab hbn hrun (.inl hend)
          (runsFrom_nil fun i hi hin => absurd hin (by omega))
      · refine (if_neg fun hcut => ?_).symm
        rcases cut_cons.1 hcut with ⟨hlt, -⟩ | ⟨_, hx, -⟩
        · dsimp only at hlt
          omega
        · exact absurd hx List.not_mem_nil
    · -- a token, and the rest of the string behind the delimiter that has become a zero byte
      have hrest' : Rest s (st.mem.write8 (p + b) 0) p (b + 1) := by
        intro i hi hin
        rw [← hrest i (by omega) hin]
        unfold Mem.read8 Mem.write8
        rw [if_neg (by omega)]
      obtain ⟨L, st', hloop, hruns, hmem⟩ := ih (k := b + 1)
        (hnext _ _ hcall (by omega)) (if_neg (not_not.2 rfl)) hrest' hlt (.inr hstop) (by omega)
      refine ⟨(a, b - a) :: L, st', ?_, .cons hgap hka hskip hab hbn hrun (.inr hstop) hruns,
        fun x => ?_⟩
      · rw [tokenLoop, hcall]
        change (if p + a = 0 then _ else _) = _
        rw [if_neg (by omega), hloop]
        rfl
      · rw [hmem x]
        by_cases hcut : Cut s p L x
        · rw [if_pos hcut, if_pos (cut_cons.2 (.inr hcut))]
        · rw [if_neg hcut]
          by_cases hx : x = p + b
          · rw [if_pos (cut_cons.2 (.inl (by dsimp only; omega)))]
            exact if_pos (by omega)
          · rw [if_neg fun h => (cut_cons.1 h).elim (fun ⟨_, h⟩ => hx (by dsimp only at h; omega))
              hcut]
            exact if_neg (by omega)

end Loop

/-- A token stands in memory as a string of its own: the run is untouched, and the byte behind it is
zero. -/
theorem spells_token {s d : CString} {m m' : Mem} {p : ℕ} (hn : p + s.bytes.length < 4294967296)
    (hs : Spells m.read8 p s.bytes) {L : List (ℕ × ℕ)}
    (hL : RunsFrom (NonDelim s d) s.bytes.length 0 L)
    (hmem : ∀ a, m' a = if Cut s p L a then 0 else m a) {o l : ℕ} (hol : (o, l) ∈ L) :
    Spells m'.read8 (p + o) ((s.bytes.drop o).take l) := by
  obtain ⟨-, hrun⟩ := (hL.mem_iff o l).1 hol
  have hle := hrun.le
  have hlen : ((s.bytes.drop o).take l).length = l := by simp; omega
  rw [spells_iff, hlen]
  intro i hi
  have hread : ∀ k ≤ s.bytes.length, m'.read8 (p + k) =
      if Cut s p L (p + k) then 0 else s.bytes.getD k 0 := fun k hk => by
    rw [← spells_iff.1 hs k hk]
    unfold Mem.read8
    rw [Nat.mod_eq_of_lt (by omega), hmem]
  rw [Nat.add_assoc, hread (o + i) (by omega)]
  rcases Nat.eq_or_lt_of_le hi with rfl | hlt
  · rw [List.getD_eq_default ((s.bytes.drop o).take i) _ hlen.le]
    rcases Nat.eq_or_lt_of_le hle with hend | hcut
    · rw [List.getD_eq_default _ _ hend.ge]
      exact ite_self _
    · exact if_pos (show Cut s p L (p + (o + i)) from ⟨(o, i), hol, hcut, rfl⟩)
  · rw [if_neg, List.getD_eq_getElem _ _ (by omega), List.getD_eq_getElem _ _ (by omega)]
    · simp
    · -- the bytes overwritten were delimiters
      rintro ⟨x, hx, hxlt, heq⟩
      have hright := ((hL.mem_iff x.1 x.2).1 hx).2.right
      have hpos : x.1 + x.2 = o + i := by omega
      rw [hpos] at hright
      exact hright.elim (by omega) fun h => h (hrun.all (o + i) (by omega) (by omega))

/-- The tokens of a string are its maximal runs of other characters than delimiters, in order; each
stands in memory as a string of its own, they take at most one call more than the string has
characters, and nothing is written but one delimiter behind each token. -/
theorem strtok_tokens (s d : CString) {st : StrtokState} {p : ℕ} (hp : 0 < p)
    (hn : p + s.bytes.length < 4294967296) (hs : Spells st.mem.read8 p s.bytes) {delim : ℕ → ℕ}
    (hdelim : ∀ j, 0 < delim j) (hheld : DelimHeld d delim (s.bytes.length + 1) 0 st p) :
    ∃ L st', tokenLoop delim (s.bytes.length + 1) 0 st p = .ok (L.map (fun x => p + x.1), st') ∧
      L.length ≤ s.bytes.length ∧
      (L.Pairwise fun x y => x.1 + x.2 < y.1) ∧
      (∀ o l, (o, l) ∈ L ↔ IsRun (NonDelim s d) s.bytes.length o l) ∧
      (∀ o l, (o, l) ∈ L → Spells st'.mem.read8 (p + o) ((s.bytes.drop o).take l)) ∧
      ∀ a, st'.mem a = if Cut s p L a then 0 else st.mem a := by
  obtain ⟨L, st', hloop, hruns, hmem⟩ := tokenLoop_spec (k := 0) hp hn hdelim hheld
    (if_pos (by omega)) (fun i _ hi => spells_iff.1 hs i hi) (Nat.zero_le _) (.inl rfl) (by omega)
  refine ⟨L, st', hloop, hruns.length_le (Nat.zero_le _), hruns.ordered, fun o l => ?_,
    fun o l hol => spells_token hn hs hruns hmem hol, hmem⟩
  rw [hruns.mem_iff]
  exact and_iff_right (Nat.zero_le o)

/-- Delimiters that stand outside of the string are held in every call. -/
theorem delimHeld_of_disjoint {s d : CString} {p q : ℕ} (hp : 0 < p)
    (hn : p + s.bytes.length < 4294967296) (hq : 0 < q)
    (hdisj : ∀ i ≤ d.bytes.length, (q + i) % 4294967296 < p ∨
      p + s.bytes.length < (q + i) % 4294967296) {fuel k j : ℕ} {st : StrtokState} {str : ℕ}
    (hd : Spells st.mem.read8 q d.bytes) (hstart : (if str ≠ 0 then str else st.last) = p + k)
    (hrest : Rest s st.mem p k) (hk : k ≤ s.bytes.length) :
    DelimHeld d (fun _ => q) fuel j st str := by
  induction fuel generalizing k j st str with
  | zero => trivial
  | succ fuel ih =>
    refine ⟨hd, fun st' token hcall htoken => ?_⟩
    have hover : ∀ {fuel j : ℕ}, DelimHeld d (fun _ => q) fuel j ⟨st.mem, 0⟩ 0 := by
      intro fuel j
      cases fuel with
      | zero => trivial
      | succ fuel =>
        refine ⟨hd, fun st' token hcall htoken => absurd ?_ htoken⟩
        have hnull : strtok ⟨st.mem, 0⟩ 0 q = .ok (⟨st.mem, 0⟩, 0) := if_pos ⟨rfl, rfl⟩
        exact (congrArg Prod.snd (Except.ok.inj (hnull.symm.trans hcall))).symm
    rcases strtok_spec hd hq hstart hp hrest hk (by omega) with ⟨-, hrun⟩ |
      ⟨a, b, hka, hab, hbn, -, -, ⟨-, hrun⟩ | ⟨hlt, -, hrun⟩⟩
    · cases hrun.symm.trans hcall
      exact hover
    · cases hrun.symm.trans hcall
      exact hover
    · cases hrun.symm.trans hcall
      refine ih (k := b + 1) ?_ (if_neg (not_not.2 rfl)) (fun i hi hin => ?_) hlt
      · rw [spells_iff] at hd ⊢
        intro i hi
        rw [← hd i hi]
        have hne := hdisj i hi
        unfold Mem.read8 Mem.write8
        exact if_neg (by omega)
      · rw [← hrest i (by omega) hin]
        unfold Mem.read8 Mem.write8
        exact if_neg (by omega)

/-- `" ab"` at address 16 and the blank at address 32. -/
def tokenMem : Mem := fun a =>
  if a = 16 ∨ a = 32 then 32 else if a = 17 then 97 else if a = 18 then 98 else 0

def tokenText : CString := ⟨[32, 97, 98], by decide⟩

def blankText : CString := ⟨[32], by decide⟩

theorem strtok_tokens_sample : ∃ (L : List (ℕ × ℕ)) (st' : StrtokState),
    tokenLoop (fun _ => 32) 4 0 ⟨tokenMem, 0⟩ 16 = .ok (L.map (fun x => 16 + x.1), st') ∧
      L.length ≤ 3 := by
  have hs : Spells tokenMem.read8 16 tokenText.bytes :=
    spells_read8.2 (show HoldsString tokenMem 16 tokenText.bytes by decide)
  have hd : Spells tokenMem.read8 32 blankText.bytes :=
    spells_read8.2 (show HoldsString tokenMem 32 blankText.bytes by decide)
  have hheld : DelimHeld blankText (fun _ => 32) (tokenText.bytes.length + 1) 0 ⟨tokenMem, 0⟩ 16 :=
    delimHeld_of_disjoint (s := tokenText) (p := 16) (k := 0) (by decide) (by decide) (by decide)
      (by decide) hd (if_pos (by decide)) (fun i _ hi => spells_iff.1 hs i hi) (by decide)
  obtain ⟨L, st', hloop, hlen, -⟩ :=
    strtok_tokens tokenText blankText (p := 16) (by decide) (by decide) hs (fun _ => by decide)
      hheld
  exact ⟨L, st', hloop, hlen⟩

end Ospp
