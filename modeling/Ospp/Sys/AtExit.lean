import Mathlib.Tactic

/-!
# Exit handlers

`__cxa_atexit` and `__cxa_finalize` from `icxxabi.cpp`. A handler may register others while it runs,
so its behaviour is what it registers, as a function of all that has happened (`Handlers`).

The order of the calls is that of a stack: registrations push, a call pops (`replay`).
`__cxa_finalize(0)` walks the entries there were when it began and then forgets the table, so it
empties the stack unless a handler has pushed another entry (`exitOrder_iff`). `__cxa_finalize(f)`
calls the entries of `f` and packs the others together (`finalizesOnly_iff`). An entry without a
function is a hole to both.
-/

namespace Ospp.Cxa

/-- `atexit_func_entry_t`; 0 is `nullptr`. -/
structure FuncEntry where
  destructorFunc : UInt32
  objPtr : UInt32
  dsoHandle : UInt32
  deriving DecidableEq, Repr

/-- `ATEXIT_MAX_FUNCS`. -/
def maxFuncs : ℕ := 128

/-- `__atexit_funcs`, as far as `__atexit_func_count`. -/
structure Table where
  entries : List FuncEntry
  bound : entries.length ≤ maxFuncs

def Table.empty : Table := ⟨[], Nat.zero_le _⟩

/-- `__cxa_atexit`. -/
def atexit (t : Table) (e : FuncEntry) : Table × Int :=
  if h : t.entries.length ≥ maxFuncs then (t, -1)
  else (⟨t.entries ++ [e], by rw [List.length_append]; exact Nat.not_le.1 h⟩, 0)

inductive Event where
  /-- A registration that returned 0. -/
  | registered (e : FuncEntry)
  | rejected (e : FuncEntry)
  | called (fn obj : UInt32)
  deriving DecidableEq, Repr

/-- What a handler registers after the events that end with its call. -/
abbrev Handlers := List Event → List FuncEntry

/-- A registration, with its event. -/
def attempt (s : Table × List Event) (e : FuncEntry) : Table × List Event :=
  match atexit s.1 e with
  | (t, 0) => (t, s.2 ++ [.registered e])
  | (t, _) => (t, s.2 ++ [.rejected e])

/-- `fn(obj)`. -/
def call (handlers : Handlers) (s : Table × List Event) (fn obj : UInt32) : Table × List Event :=
  (handlers (s.2 ++ [.called fn obj])).foldl attempt (s.1, s.2 ++ [.called fn obj])

/-- An entry whose function and object have been set to `nullptr`. -/
def FuncEntry.wiped (e : FuncEntry) : FuncEntry := { e with destructorFunc := 0, objPtr := 0 }

def Table.wipe (t : Table) (i : ℕ) : Table :=
  ⟨t.entries.modify i FuncEntry.wiped, by rw [List.length_modify]; exact t.bound⟩

/-- The loops of `__cxa_finalize`, over the entries below `i` from the last one on: entries to be
wiped out, and of these the ones to be called. -/
def walk (handlers : Handlers) (wipe calls : FuncEntry → Bool) :
    ℕ → Table × List Event → Table × List Event
  | 0, s => s
  | i + 1, s =>
    match s.1.entries[i]? with
    | none => walk handlers wipe calls i s
    | some e =>
      let s := (if wipe e then s.1.wipe i else s.1, s.2)
      let s := if calls e then call handlers s e.destructorFunc e.objPtr else s
      walk handlers wipe calls i s

/-- The body of the last loop: `w` is the entry to be written, `r` the one to be read. -/
def packStep (s : List FuncEntry × ℕ) (r : ℕ) : List FuncEntry × ℕ :=
  match s.1[r]? with
  | none => s
  | some e =>
    if e.destructorFunc ≠ 0 then (if s.2 ≠ r then s.1.set s.2 e else s.1, s.2 + 1) else s

theorem length_packStep (s : List FuncEntry × ℕ) (r : ℕ) :
    (packStep s r).1.length = s.1.length := by
  unfold packStep
  split
  · rfl
  · split
    · dsimp only
      split
      · exact List.length_set
      · rfl
    · rfl

theorem length_foldl_packStep (rs : List ℕ) (s : List FuncEntry × ℕ) :
    (rs.foldl packStep s).1.length = s.1.length := by
  induction rs generalizing s with
  | nil => rfl
  | cons r rs ih => exact (ih (packStep s r)).trans (length_packStep s r)

def Table.pack (t : Table) : Table :=
  let s := (List.range t.entries.length).foldl packStep (t.entries, 0)
  ⟨s.1.take s.2, by
    rw [List.length_take, length_foldl_packStep]
    exact (Nat.min_le_right _ _).trans t.bound⟩

/-- `__cxa_finalize`. -/
def finalize (handlers : Handlers) (f : UInt32) (s : Table × List Event) : Table × List Event :=
  if f = 0 then
    (.empty, (walk handlers (fun _ => true) (fun e => e.destructorFunc ≠ 0)
      s.1.entries.length s).2)
  else
    let s := walk handlers (fun e => e.destructorFunc = f) (fun e => e.destructorFunc = f)
      s.1.entries.length s
    (s.1.pack, s.2)

/-! ## Events -/

/-- The entries registered. -/
def pushed (evs : List Event) : List FuncEntry :=
  evs.filterMap fun
    | .registered e => some e
    | _ => none

/-- The functions called, with their objects. -/
def calledOf (evs : List Event) : List (UInt32 × UInt32) :=
  evs.filterMap fun
    | .called fn obj => some (fn, obj)
    | _ => none

def FuncEntry.key (e : FuncEntry) : UInt32 × UInt32 := (e.destructorFunc, e.objPtr)

theorem pushed_append (evs evs' : List Event) : pushed (evs ++ evs') = pushed evs ++ pushed evs' :=
  List.filterMap_append

theorem calledOf_append (evs evs' : List Event) :
    calledOf (evs ++ evs') = calledOf evs ++ calledOf evs' := List.filterMap_append

/-- The stack after the events: a registration pushes its entry, and what is called is the entry
on top. -/
def replay : List Event → List FuncEntry → Option (List FuncEntry)
  | [], st => some st
  | .registered e :: evs, st => replay evs (e :: st)
  | .rejected _ :: evs, st => replay evs st
  | .called _ _ :: _, [] => none
  | .called fn obj :: evs, e :: st => if e.key = (fn, obj) then replay evs st else none

theorem replay_append (evs evs' : List Event) (st : List FuncEntry) :
    replay (evs ++ evs') st = (replay evs st).bind (replay evs') := by
  induction evs generalizing st with
  | nil => rfl
  | cons ev evs ih =>
    cases ev with
    | registered e => exact ih (e :: st)
    | rejected e => exact ih st
    | called fn obj =>
      cases st with
      | nil => rfl
      | cons e st =>
        rw [List.cons_append, replay, replay]
        split
        · exact ih st
        · rfl

/-- Every call takes one entry off. -/
theorem length_replay {evs : List Event} {st st' : List FuncEntry} (h : replay evs st = some st') :
    st.length + (pushed evs).length = (calledOf evs).length + st'.length := by
  induction evs generalizing st with
  | nil =>
    cases h
    simp [pushed, calledOf]
  | cons ev evs ih =>
    cases ev with
    | registered e =>
      have hlen := ih (show replay evs (e :: st) = some st' from h)
      simp only [pushed, calledOf, List.filterMap_cons, List.length_cons] at hlen ⊢
      omega
    | rejected e => exact ih (show replay evs st = some st' from h)
    | called fn obj =>
      cases st with
      | nil => exact absurd h nofun
      | cons e st =>
        rw [replay] at h
        split at h
        · have hlen := ih h
          simp only [pushed, calledOf, List.filterMap_cons, List.length_cons] at hlen ⊢
          omega
        · exact absurd h nofun

/-- The entries of the stack called from the top on. -/
theorem replay_calls {evs : List Event} {st : List FuncEntry} (hpush : pushed evs = [])
    (hcall : calledOf evs = st.map FuncEntry.key) : replay evs st = some [] := by
  induction evs generalizing st with
  | nil =>
    have hst : st = [] := List.map_eq_nil_iff.1 hcall.symm
    rw [hst]
    rfl
  | cons ev evs ih =>
    cases ev with
    | registered e => exact absurd hpush (List.cons_ne_nil _ _)
    | rejected e => exact ih (show pushed evs = [] from hpush) hcall
    | called fn obj =>
      cases st with
      | nil => exact absurd hcall (List.cons_ne_nil _ _)
      | cons e st =>
        have hcons : (fn, obj) :: calledOf evs = e.key :: st.map FuncEntry.key := hcall
        obtain ⟨hkey, hrest⟩ := List.cons_eq_cons.1 hcons
        rw [replay, if_pos hkey.symm]
        exact ih hpush hrest

/-! ## Registration -/

theorem attempt_of_room {s : Table × List Event} (h : s.1.entries.length < maxFuncs)
    (e : FuncEntry) :
    (attempt s e).1.entries = s.1.entries ++ [e] ∧ (attempt s e).2 = s.2 ++ [.registered e] := by
  unfold attempt atexit
  rw [dif_neg (Nat.not_le.2 h)]
  exact ⟨rfl, rfl⟩

theorem attempt_of_full {s : Table × List Event} (h : maxFuncs ≤ s.1.entries.length)
    (e : FuncEntry) : attempt s e = (s.1, s.2 ++ [.rejected e]) := by
  unfold attempt atexit
  rw [dif_pos h]
  rfl

/-- What registrations leave: the entries accepted are appended, and the table accepts entries as
long as there is room. -/
theorem attempts_spec (regs : List FuncEntry) (s : Table × List Event) :
    ∃ evs, (regs.foldl attempt s).2 = s.2 ++ evs ∧ calledOf evs = [] ∧
      (regs.foldl attempt s).1.entries = s.1.entries ++ pushed evs ∧
      (pushed evs = [] ↔ maxFuncs ≤ s.1.entries.length ∨ regs = []) := by
  induction regs generalizing s with
  | nil => exact ⟨[], by simp, rfl, by simp [pushed], by simp [pushed]⟩
  | cons e regs ih =>
    obtain ⟨evs, htrace, hcall, hentries, hnone⟩ := ih (attempt s e)
    rcases Nat.lt_or_ge s.1.entries.length maxFuncs with hroom | hfull
    · obtain ⟨hfirst, hevent⟩ := attempt_of_room hroom e
      refine ⟨.registered e :: evs, ?_, hcall, ?_, ?_⟩
      · rw [List.foldl_cons, htrace, hevent, List.append_assoc]
        rfl
      · rw [List.foldl_cons, hentries, hfirst, List.append_assoc]
        rfl
      · simp [pushed, Nat.not_le.2 hroom]
    · rw [attempt_of_full hfull] at htrace hentries hnone
      refine ⟨.rejected e :: evs, ?_, hcall, ?_, ?_⟩
      · rw [List.foldl_cons, attempt_of_full hfull, htrace, List.append_assoc]
        rfl
      · rw [List.foldl_cons, attempt_of_full hfull, hentries]
        rfl
      · exact ⟨fun _ => .inl hfull, fun _ => hnone.2 (.inl hfull)⟩

/-- A handler runs. -/
theorem call_spec (handlers : Handlers) (s : Table × List Event) (fn obj : UInt32) :
    ∃ evs, (call handlers s fn obj).2 = s.2 ++ .called fn obj :: evs ∧ calledOf evs = [] ∧
      (call handlers s fn obj).1.entries = s.1.entries ++ pushed evs ∧
      (pushed evs = [] ↔
        maxFuncs ≤ s.1.entries.length ∨ handlers (s.2 ++ [.called fn obj]) = []) ∧
      (handlers (s.2 ++ [.called fn obj]) = [] → evs = []) := by
  obtain ⟨evs, htrace, hcall, hentries, hnone⟩ :=
    attempts_spec (handlers (s.2 ++ [.called fn obj])) (s.1, s.2 ++ [.called fn obj])
  refine ⟨evs, ?_, hcall, hentries, hnone, fun hquiet => ?_⟩
  · rw [call, htrace, List.append_assoc]
    rfl
  · rw [hquiet] at htrace
    exact List.self_eq_append_right.1 htrace

/-! ## The walk -/

/-- The event of an entry's call. -/
def FuncEntry.event (e : FuncEntry) : Event := .called e.destructorFunc e.objPtr

/-- Called one after the other, without any other event, none of the entries registers any. -/
def NoneRegisters (handlers : Handlers) (tr : List Event) (es : List FuncEntry) : Prop :=
  ∀ k < es.length, handlers (tr ++ (es.take (k + 1)).map FuncEntry.event) = []

theorem noneRegisters_cons {handlers : Handlers} {tr : List Event} {e : FuncEntry}
    {es : List FuncEntry} :
    NoneRegisters handlers tr (e :: es) ↔
      handlers (tr ++ [e.event]) = [] ∧ NoneRegisters handlers (tr ++ [e.event]) es := by
  constructor
  · intro h
    refine ⟨by simpa using h 0 (by simp), fun k hk => ?_⟩
    simpa using h (k + 1) (by simpa using hk)
  · rintro ⟨hfirst, hrest⟩ k hk
    cases k with
    | zero => simpa using hfirst
    | succ k => simpa using hrest k (by simpa using hk)

/-- What is left of an entry the walk has passed. -/
def leave (wipe : FuncEntry → Bool) (e : FuncEntry) : FuncEntry := if wipe e then e.wiped else e

/-- The walk over the entries `pre`. -/
structure Walked (handlers : Handlers) (wipe calls : FuncEntry → Bool) (t : Table)
    (tr : List Event) (pre post : List FuncEntry) (evs : List Event) : Prop where
  trace : (walk handlers wipe calls pre.length (t, tr)).2 = tr ++ evs
  entries : (walk handlers wipe calls pre.length (t, tr)).1.entries =
    pre.map (leave wipe) ++ post ++ pushed evs
  called : calledOf evs = (pre.reverse.filter calls).map FuncEntry.key
  full : maxFuncs ≤ t.entries.length → pushed evs = []
  quiet : (∀ e ∈ pre, calls e = true) → t.entries.length < maxFuncs →
    (pushed evs = [] ↔ NoneRegisters handlers tr pre.reverse)

theorem modify_middle (f : FuncEntry → FuncEntry) (pre : List FuncEntry) (e : FuncEntry)
    (post : List FuncEntry) :
    (pre ++ e :: post).modify pre.length f = pre ++ f e :: post := by
  induction pre with
  | nil => rfl
  | cons a pre ih => exact congrArg (a :: ·) ih

/-- The walk has passed the last entry of `pre ++ [e]`, which is `e`, and goes on with `pre`. -/
theorem walk_append (handlers : Handlers) (wipe calls : FuncEntry → Bool) {t : Table}
    (tr : List Event) {pre post : List FuncEntry} {e : FuncEntry}
    (ht : t.entries = pre ++ e :: post) :
    ∃ t₁ : Table, t₁.entries = pre ++ leave wipe e :: post ∧
      walk handlers wipe calls (pre.length + 1) (t, tr) =
        walk handlers wipe calls pre.length
          (if calls e then call handlers (t₁, tr) e.destructorFunc e.objPtr else (t₁, tr)) := by
  have hget : t.entries[pre.length]? = some e := by simp [ht]
  refine ⟨if wipe e then t.wipe pre.length else t, ?_, ?_⟩
  · unfold leave
    split
    · change t.entries.modify pre.length FuncEntry.wiped = _
      rw [ht, modify_middle]
    · exact ht
  · rw [walk]
    dsimp only
    rw [hget]

theorem walked (handlers : Handlers) (wipe calls : FuncEntry → Bool) (pre : List FuncEntry)
    (t : Table) (tr : List Event) (post : List FuncEntry) (ht : t.entries = pre ++ post) :
    ∃ evs, Walked handlers wipe calls t tr pre post evs := by
  induction pre using List.reverseRecOn generalizing t tr post with
  | nil =>
    refine ⟨[], ⟨by simp [walk], by simp [walk, pushed, ht], rfl, fun _ => rfl, fun _ _ => ?_⟩⟩
    exact ⟨fun _ k hk => absurd hk (Nat.not_lt_zero k), fun _ => rfl⟩
  | append_singleton pre e ih =>
    rw [List.append_assoc, List.singleton_append] at ht
    obtain ⟨t₁, ht₁, hwalk⟩ := walk_append handlers wipe calls tr ht
    have hlen : t₁.entries.length = t.entries.length := by simp [ht, ht₁]
    have hpre : (pre ++ [e]).length = pre.length + 1 := by simp
    cases hcalls : calls e with
    | false =>
      rw [hcalls, if_neg Bool.false_ne_true] at hwalk
      obtain ⟨evs, h⟩ := ih t₁ tr (leave wipe e :: post) ht₁
      refine ⟨evs, ⟨?_, ?_, ?_, fun hfull => h.full (hlen ▸ hfull), fun hall _ => ?_⟩⟩
      · rw [hpre, hwalk, h.trace]
      · rw [hpre, hwalk, h.entries]
        simp
      · rw [h.called]
        simp [hcalls]
      · exact absurd (hall e (by simp)) (by simp [hcalls])
    | true =>
      rw [hcalls, if_pos rfl] at hwalk
      obtain ⟨evs₁, htrace₁, hcalled₁, hentries₁, hnone₁, hquiet₁⟩ :=
        call_spec handlers (t₁, tr) e.destructorFunc e.objPtr
      generalize call handlers (t₁, tr) e.destructorFunc e.objPtr = s at *
      obtain ⟨t₂, tr₂⟩ := s
      dsimp only at *
      obtain ⟨evs₂, h⟩ := ih t₂ tr₂ (leave wipe e :: post ++ pushed evs₁)
        (by rw [hentries₁, ht₁, List.append_assoc])
      have hpushed : pushed (e.event :: evs₁ ++ evs₂) = pushed evs₁ ++ pushed evs₂ :=
        pushed_append (e.event :: evs₁) evs₂
      refine ⟨e.event :: evs₁ ++ evs₂, ⟨?_, ?_, ?_, fun hfull => ?_, fun hall hroom => ?_⟩⟩
      · rw [hpre, hwalk, h.trace, htrace₁, List.append_assoc]
        rfl
      · rw [hpre, hwalk, h.entries, hpushed]
        simp
      · have hhead : calledOf (e.event :: evs₁) = [e.key] := congrArg (e.key :: ·) hcalled₁
        rw [calledOf_append, hhead, h.called]
        simp [hcalls]
      · rw [← hlen] at hfull
        have hempty := hnone₁.2 (.inl hfull)
        rw [hpushed, hempty, h.full (by rw [hentries₁, hempty, List.append_nil]; exact hfull)]
        rfl
      · rw [← hlen] at hroom
        rw [hpushed, List.append_eq_nil_iff, List.reverse_append, List.reverse_singleton,
          List.singleton_append, noneRegisters_cons]
        have hfirst : pushed evs₁ = [] ↔ handlers (tr ++ [e.event]) = [] :=
          hnone₁.trans (or_iff_right (Nat.not_le.2 hroom))
        rw [hfirst]
        refine and_congr_right fun hsilent => ?_
        have hevs := hquiet₁ hsilent
        subst hevs
        rw [show tr ++ [e.event] = tr₂ from htrace₁.symm]
        refine h.quiet (fun x hx => hall x (by simp [hx])) ?_
        rw [hentries₁]
        simpa [pushed] using hroom

/-! ## Packing -/

/-- After the entries below `n`: those with a function stand in front, and the rest is as it
was. -/
structure Packed (l : List FuncEntry) (n : ℕ) (s : List FuncEntry × ℕ) : Prop where
  length : s.1.length = l.length
  written : s.1.take s.2 = (l.take n).filter fun e => e.destructorFunc ≠ 0
  behind : s.2 ≤ n
  rest : ∀ r, n ≤ r → s.1[r]? = l[r]?

theorem packed (l : List FuncEntry) (n : ℕ) (hn : n ≤ l.length) :
    Packed l n ((List.range n).foldl packStep (l, 0)) := by
  induction n with
  | zero => exact ⟨rfl, by simp, Nat.le_refl 0, fun _ _ => rfl⟩
  | succ n ih =>
    obtain ⟨hlength, hwritten, hbehind, hrest⟩ := ih (Nat.le_of_succ_le hn)
    rw [List.range_succ, List.foldl_append, List.foldl_cons, List.foldl_nil]
    generalize (List.range n).foldl packStep (l, 0) = s at *
    obtain ⟨fs, w⟩ := s
    dsimp only at *
    have hget : fs[n]? = some l[n] := by
      rw [hrest n (Nat.le_refl n), List.getElem?_eq_getElem hn]
    have htake : l.take (n + 1) = l.take n ++ [l[n]] := (List.take_append_getElem hn).symm
    unfold packStep
    dsimp only
    rw [hget]
    dsimp only
    by_cases hzero : l[n].destructorFunc = 0
    · rw [if_neg (by simp [hzero])]
      refine ⟨hlength, ?_, Nat.le_succ_of_le hbehind, fun r hr => hrest r (by omega)⟩
      rw [hwritten, htake, List.filter_append]
      simp [hzero]
    · rw [if_pos (by simpa using hzero)]
      have hset : (if w ≠ n then fs.set w l[n] else fs) = fs.set w l[n] := by
        split
        · rfl
        · next hw =>
          rw [not_not] at hw
          obtain ⟨hlt, hval⟩ := List.getElem?_eq_some_iff.1 hget
          subst hw
          rw [← hval, List.set_getElem_self]
      rw [hset]
      refine ⟨by simpa using hlength, ?_, Nat.succ_le_succ hbehind, fun r hr => ?_⟩
      · dsimp only
        have hlt : w < fs.length := by omega
        rw [List.take_add_one, List.take_set_of_le (Nat.le_refl w), List.getElem?_set_self hlt,
          hwritten, htake, List.filter_append]
        simp [hzero]
      · rw [List.getElem?_set_ne (by omega)]
        exact hrest r (by omega)

/-- `pack` drops the entries without a function. -/
theorem entries_pack (t : Table) :
    t.pack.entries = t.entries.filter fun e => e.destructorFunc ≠ 0 := by
  have h := (packed t.entries t.entries.length (Nat.le_refl _)).written
  rwa [List.take_length] at h

/-! ## Finalization -/

/-- What `__cxa_finalize(0)` calls, and when no handler registers another. -/
theorem finalize_all (handlers : Handlers) (t : Table) (tr : List Event) :
    ∃ evs, (finalize handlers 0 (t, tr)).2 = tr ++ evs ∧
      calledOf evs =
        (t.entries.reverse.filter fun e => e.destructorFunc ≠ 0).map FuncEntry.key ∧
      ((∀ e ∈ t.entries, e.destructorFunc ≠ 0) →
        (pushed evs = [] ↔
          maxFuncs ≤ t.entries.length ∨ NoneRegisters handlers tr t.entries.reverse)) := by
  obtain ⟨evs, h⟩ := walked handlers (fun _ => true) (fun e => e.destructorFunc ≠ 0) t.entries t tr
    [] (List.append_nil _).symm
  refine ⟨evs, by rw [finalize, if_pos rfl]; exact h.trace, h.called, fun hall => ?_⟩
  rcases Nat.lt_or_ge t.entries.length maxFuncs with hroom | hfull
  · rw [h.quiet (fun e he => decide_eq_true (hall e he)) hroom]
    exact (or_iff_right (Nat.not_le.2 hroom)).symm
  · exact ⟨fun _ => .inl hfull, fun _ => h.full hfull⟩

/-- `__cxa_finalize(0)` empties the stack if and only if there is no hole in the table and no
handler registers another. -/
theorem replay_finalize_all (handlers : Handlers) (t : Table) (tr evs : List Event)
    (hevs : (finalize handlers 0 (t, tr)).2 = tr ++ evs) :
    replay evs t.entries.reverse = some [] ↔
      (∀ e ∈ t.entries, e.destructorFunc ≠ 0) ∧
        (maxFuncs ≤ t.entries.length ∨ NoneRegisters handlers tr t.entries.reverse) := by
  obtain ⟨evs', htrace, hcalled, hnone⟩ := finalize_all handlers t tr
  obtain rfl : evs' = evs := List.append_cancel_left (htrace.symm.trans hevs)
  constructor
  · intro h
    -- each entry was pushed once, and only those of the table with a function are called
    have hlen := length_replay h
    have hle := List.length_filter_le (fun e : FuncEntry => decide (e.destructorFunc ≠ 0))
      t.entries.reverse
    rw [hcalled, List.length_map, List.length_nil] at hlen
    have hpush : pushed evs' = [] := List.length_eq_zero_iff.1 (by omega)
    have hall : ∀ e ∈ t.entries, e.destructorFunc ≠ 0 := fun e he => by
      have hfilter := List.length_filter_eq_length_iff.1
        (show (t.entries.reverse.filter fun e => decide (e.destructorFunc ≠ 0)).length =
          t.entries.reverse.length by omega)
      simpa using hfilter e (List.mem_reverse.2 he)
    exact ⟨hall, (hnone hall).1 hpush⟩
  · rintro ⟨hall, hquiet⟩
    refine replay_calls ((hnone hall).2 hquiet) ?_
    rw [hcalled, List.filter_eq_self.2 fun e he => decide_eq_true (hall e (List.mem_reverse.1 he))]

/-- Registrations into an empty table, one after the other. -/
def register (regs : List FuncEntry) : Table × List Event := regs.foldl attempt (.empty, [])

/-- Handlers are registered, and then `__cxa_finalize(0)` runs. -/
def exitRun (handlers : Handlers) (regs : List FuncEntry) : List Event :=
  (finalize handlers 0 (register regs)).2

/-- Every entry registered is called exactly once, and each call is that of the entry registered
last among those not called yet. -/
def ExitOrder (handlers : Handlers) (regs : List FuncEntry) : Prop :=
  replay (exitRun handlers regs) [] = some []

instance (handlers : Handlers) (regs : List FuncEntry) : Decidable (ExitOrder handlers regs) :=
  inferInstanceAs (Decidable (_ = _))

theorem foldl_attempt (regs : List FuncEntry) (s : Table × List Event) :
    (regs.foldl attempt s).1.entries = (s.1.entries ++ regs).take maxFuncs ∧
      (s.1.entries.length + regs.length ≤ maxFuncs →
        (regs.foldl attempt s).2 = s.2 ++ regs.map .registered) ∧
      ∃ evs, (regs.foldl attempt s).2 = s.2 ++ evs ∧
        ∀ st, replay evs (s.1.entries.reverse ++ st) =
          some ((regs.foldl attempt s).1.entries.reverse ++ st) := by
  induction regs generalizing s with
  | nil =>
    refine ⟨?_, fun _ => (List.append_nil _).symm, [], (List.append_nil _).symm, fun _ => rfl⟩
    rw [List.append_nil, List.take_of_length_le s.1.bound]
    rfl
  | cons e regs ih =>
    obtain ⟨hentries, htrace, evs, hevs, hreplay⟩ := ih (attempt s e)
    rw [List.foldl_cons]
    rcases Nat.lt_or_ge s.1.entries.length maxFuncs with hroom | hfull
    · obtain ⟨hfirst, hevent⟩ := attempt_of_room hroom e
      refine ⟨?_, fun hlen => ?_, .registered e :: evs, ?_, fun st => ?_⟩
      · rw [hentries, hfirst, List.append_assoc]
        rfl
      · rw [htrace (by rw [hfirst]; simp at hlen ⊢; omega), hevent, List.append_assoc]
        rfl
      · rw [hevs, hevent, List.append_assoc]
        rfl
      · rw [← hreplay st, hfirst, List.reverse_append]
        rfl
    · rw [attempt_of_full hfull] at hentries htrace hevs hreplay ⊢
      refine ⟨?_, fun hlen => ?_, .rejected e :: evs, ?_, fun st => hreplay st⟩
      · rw [hentries]
        dsimp only
        rw [List.take_append_of_le_length hfull, List.take_append_of_le_length hfull]
      · rw [List.length_cons] at hlen
        omega
      · rw [hevs, List.append_assoc]
        rfl

/-- Handlers run in the order of a stack if and only if every registration names a function, and
none is made by a handler while there is room for it. -/
theorem exitOrder_iff (handlers : Handlers) (regs : List FuncEntry) :
    ExitOrder handlers regs ↔
      (∀ e ∈ regs.take maxFuncs, e.destructorFunc ≠ 0) ∧
        (maxFuncs ≤ regs.length ∨
          NoneRegisters handlers (regs.map .registered) regs.reverse) := by
  obtain ⟨hentries, htrace, evs, hevs, hreplay⟩ := foldl_attempt regs (.empty, [])
  change (register regs).1.entries = regs.take maxFuncs at hentries
  change _ → (register regs).2 = regs.map .registered at htrace
  change (register regs).2 = evs at hevs
  have hstack := hreplay []
  rw [List.append_nil, List.append_nil] at hstack
  change replay evs [] = some (register regs).1.entries.reverse at hstack
  obtain ⟨evs', htrace', -⟩ := finalize_all handlers (register regs).1 (register regs).2
  have hiff := replay_finalize_all handlers (register regs).1 (register regs).2 evs' htrace'
  have horder : ExitOrder handlers regs ↔
      replay evs' (register regs).1.entries.reverse = some [] := by
    unfold ExitOrder exitRun
    rw [show finalize handlers 0 (register regs) =
      finalize handlers 0 ((register regs).1, (register regs).2) from rfl, htrace', hevs,
      replay_append, hstack]
    rfl
  rw [horder, hiff, hentries]
  refine and_congr_right fun _ => ?_
  rw [List.length_take]
  rcases Nat.lt_or_ge regs.length maxFuncs with hroom | hfull
  · rw [htrace (by simpa [Table.empty] using hroom.le), List.take_of_length_le hroom.le,
      Nat.min_eq_right hroom.le]
  · rw [Nat.min_eq_left hfull]
    exact iff_of_true (.inl (Nat.le_refl _)) (.inl hfull)

/-- `__cxa_finalize(f)` calls the entries of `f`, the last one first, and keeps the others in their
order, followed by what handlers have registered. -/
def FinalizesOnly (handlers : Handlers) (f : UInt32) (t : Table) (tr : List Event) : Prop :=
  ∃ evs, (finalize handlers f (t, tr)).2 = tr ++ evs ∧
    calledOf evs = (t.entries.filter fun e => e.destructorFunc = f).reverse.map FuncEntry.key ∧
    (finalize handlers f (t, tr)).1.entries =
      (t.entries.filter fun e => e.destructorFunc ≠ f) ++
        (pushed evs).filter fun e => e.destructorFunc ≠ 0

theorem finalize_one (handlers : Handlers) {f : UInt32} (hf : f ≠ 0) (t : Table)
    (tr : List Event) :
    ∃ evs, (finalize handlers f (t, tr)).2 = tr ++ evs ∧
      calledOf evs =
        (t.entries.filter fun e => e.destructorFunc = f).reverse.map FuncEntry.key ∧
      (finalize handlers f (t, tr)).1.entries =
        ((t.entries.filter fun e => e.destructorFunc ≠ f).filter
            fun e => e.destructorFunc ≠ 0) ++
          (pushed evs).filter fun e => e.destructorFunc ≠ 0 := by
  obtain ⟨evs, h⟩ := walked handlers (fun e => e.destructorFunc = f)
    (fun e => e.destructorFunc = f) t.entries t tr [] (List.append_nil _).symm
  have hleft : ∀ l : List FuncEntry,
      (l.map (leave fun e => decide (e.destructorFunc = f))).filter
          (fun e => decide (e.destructorFunc ≠ 0)) =
        (l.filter fun e => e.destructorFunc ≠ f).filter fun e => e.destructorFunc ≠ 0 := by
    intro l
    induction l with
    | nil => rfl
    | cons e l ih =>
      rw [List.map_cons, List.filter_cons, ih]
      by_cases he : e.destructorFunc = f
      · simp [leave, FuncEntry.wiped, he]
      · simp [leave, he, List.filter_cons]
  refine ⟨evs, ?_, ?_, ?_⟩
  · rw [finalize, if_neg hf]
    exact h.trace
  · rw [h.called, List.filter_reverse]
  · rw [finalize, if_neg hf]
    dsimp only
    rw [entries_pack, h.entries, List.append_nil, List.filter_append, hleft]

theorem finalizesOnly_iff (handlers : Handlers) {f : UInt32} (hf : f ≠ 0) (t : Table)
    (tr : List Event) :
    FinalizesOnly handlers f t tr ↔ ∀ e ∈ t.entries, e.destructorFunc ≠ 0 := by
  obtain ⟨evs, htrace, hcalled, hentries⟩ := finalize_one handlers hf t tr
  have hiff : ((t.entries.filter fun e => e.destructorFunc ≠ f).filter
      fun e => e.destructorFunc ≠ 0) = (t.entries.filter fun e => e.destructorFunc ≠ f) ↔
        ∀ e ∈ t.entries, e.destructorFunc ≠ 0 := by
    rw [List.filter_eq_self]
    constructor
    · intro h e he hzero
      have hmem : e ∈ t.entries.filter fun e => e.destructorFunc ≠ f :=
        List.mem_filter.2 ⟨he, by simpa [hzero] using hf.symm⟩
      simpa [hzero] using h e hmem
    · intro h e he
      simpa using h e (List.mem_filter.1 he).1
  rw [← hiff]
  constructor
  · rintro ⟨evs', htrace', -, hentries'⟩
    obtain rfl : evs' = evs := List.append_cancel_left (htrace'.symm.trans htrace)
    exact List.append_cancel_right (hentries.symm.trans hentries')
  · intro h
    exact ⟨evs, htrace, hcalled, by rw [hentries, h]⟩

theorem exitHandlers_iff (handlers : Handlers) (regs : List FuncEntry) {f : UInt32} (hf : f ≠ 0)
    (t : Table) (tr : List Event) :
    (ExitOrder handlers regs ↔
      (∀ e ∈ regs.take maxFuncs, e.destructorFunc ≠ 0) ∧
        (maxFuncs ≤ regs.length ∨
          NoneRegisters handlers (regs.map .registered) regs.reverse)) ∧
      (FinalizesOnly handlers f t tr ↔ ∀ e ∈ t.entries, e.destructorFunc ≠ 0) :=
  ⟨exitOrder_iff handlers regs, finalizesOnly_iff handlers hf t tr⟩

theorem exitHandlers_iff_silent : (1 : UInt32) ≠ 0 ∧
    ExitOrder (fun _ => []) [⟨1, 10, 0⟩, ⟨2, 20, 0⟩] ∧
    FinalizesOnly (fun _ => []) 1 (register [⟨1, 10, 0⟩, ⟨2, 20, 0⟩, ⟨1, 30, 0⟩]).1 [] :=
  have h := exitHandlers_iff (fun _ => []) [⟨1, 10, 0⟩, ⟨2, 20, 0⟩] (f := 1) (by decide)
    (register [⟨1, 10, 0⟩, ⟨2, 20, 0⟩, ⟨1, 30, 0⟩]).1 []
  ⟨by decide, h.1.2 ⟨by decide, .inr fun _ _ => rfl⟩, h.2.2 (by decide)⟩

/-- The handler 1 registers the handler 2. -/
def registersAnother : Handlers := fun tr =>
  if tr.getLast? = some (.called 1 0) then [⟨2, 0, 0⟩] else []

/-- The handler 2 is registered, and never called. -/
theorem exitOrder_fails : ¬ ExitOrder registersAnother [⟨1, 0, 0⟩] ∧
    exitRun registersAnother [⟨1, 0, 0⟩] =
      [.registered ⟨1, 0, 0⟩, .called 1 0, .registered ⟨2, 0, 0⟩] := by
  decide

end Ospp.Cxa
