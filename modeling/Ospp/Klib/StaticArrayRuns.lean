import Ospp.Klib.StaticArray
import Ospp.Lib.Traced

/-!
# Runs of `kstd::StaticArray`

The operations of `klibcpp/static_array.hpp` with the objects they construct and destroy, over
`StaticSlot::construct` and `StaticSlot::destruct`, and the loop of a `SlotIterator`.

The events of an operation that returns account for what it does to the slots (`Explains`): an
object is constructed in a free slot and destroyed in the slot it was constructed in. So the objects
constructed in a slot are, in order, those destroyed there and the one that lives
(`constructed_eq`). The count is the number of occupied slots (`Counted`).
-/

namespace Ospp.StaticArray

open Traced

variable {α : Type} {N : ℕ}

/-! ## The operations -/

inductive SlotEvent (α : Type) where
  | construct (i : ℕ) (x : α)
  | destruct (i : ℕ) (x : α)
  deriving DecidableEq, Repr

/-- Code that constructs and destroys objects. -/
abbrev L (α β : Type) := Traced (SlotEvent α) Halt β

def capacity (_ : StaticArray α N) : ℕ := N

def isEmpty (t : StaticArray α N) : Bool := t.liveCount == 0

def full (t : StaticArray α N) : Bool := t.liveCount == N

/-- `slots_[i].construct(x)`. -/
def construct (t : StaticArray α N) (i : ℕ) (x : α) : L α (Fin N → Option α) :=
  if t.occupied i then lift (.error (.panic "StaticSlot::construct(): already constructed"))
  else do
    emit (.construct i x)
    return t.put i (some x)

/-- `slots_[i].destruct()`. -/
def destruct (t : StaticArray α N) (i : ℕ) : L α (Fin N → Option α) :=
  match t.ptr i with
  | none => lift (.error (.panic "StaticSlot::destruct(): not constructed"))
  | some x => do
    emit (.destruct i x)
    return t.put i none

/-- `emplace`, with the slot of the object it returns. -/
def emplaceNew (t : StaticArray α N) (x : α) : L α (StaticArray α N × ℕ) :=
  match t.findFreeSlot with
  | none => lift (.error (.panic "StaticArray full"))
  | some i => do
    let slots ← t.construct i x
    return (⟨slots, t.liveCount + 1⟩, i)

def emplaceAt (t : StaticArray α N) (i : ℕ) (x : α) : L α (StaticArray α N) :=
  if i ≥ N then lift (.error (.panic "StaticArray::emplace_at: index out of range"))
  else if t.occupied i then
    lift (.error (.panic "StaticArray::emplace_at: slot already occupied"))
  else do
    let slots ← t.construct i x
    return ⟨slots, t.liveCount + 1⟩

def eraseAt (t : StaticArray α N) (i : ℕ) : L α (StaticArray α N × Bool) :=
  if !t.occupied i then pure (t, false)
  else do
    let slots ← t.destruct i
    return (⟨slots, t.liveCount - 1⟩, true)

/-- The loop of `clear`. -/
def clearSlots : List ℕ → StaticArray α N → L α (StaticArray α N)
  | [], t => pure t
  | i :: is, t => do
    if t.occupied i then
      let slots ← t.destruct i
      clearSlots is ⟨slots, t.liveCount⟩
    else clearSlots is t

/-- `clear`, which is all the destructor does. -/
def clear (t : StaticArray α N) : L α (StaticArray α N) := do
  let t ← clearSlots (List.range N) t
  return ⟨t.slots, 0⟩

inductive ArrayOp (α : Type) where
  | emplace (x : α)
  | emplaceAt (i : ℕ) (x : α)
  | erase (i : ℕ)
  | clear
  deriving DecidableEq, Repr

def step (t : StaticArray α N) : ArrayOp α → L α (StaticArray α N)
  | .emplace x => do
    let (t, _) ← t.emplaceNew x
    return t
  | .emplaceAt i x => t.emplaceAt i x
  | .erase i => do
    let (t, _) ← t.eraseAt i
    return t
  | .clear => t.clear

def run (t : StaticArray α N) : List (ArrayOp α) → L α (StaticArray α N)
  | [] => pure t
  | op :: ops => do
    let t ← t.step op
    run t ops

/-! ## The iterator -/

/-- `skip_invalid`. -/
def skipInvalid (t : StaticArray α N) (i : ℕ) : ℕ :=
  if i < t.capacity ∧ t.occupied i = false then t.skipInvalid (i + 1) else i
termination_by N - i
decreasing_by simp only [capacity] at *; omega

/-- `begin()` and `end()` are the iterators made for slot 0 and slot `N`. -/
def beginIndex (t : StaticArray α N) : ℕ := t.skipInvalid 0

def endIndex (t : StaticArray α N) : ℕ := t.skipInvalid N

/-- `for (; it != end(); ++it)`: the slots it visits, and the objects it finds there. -/
def forLoop (t : StaticArray α N) : ℕ → ℕ → Option (List (ℕ × Option α))
  | 0, _ => none
  | fuel + 1, i =>
    if i = t.endIndex then some []
    else (t.forLoop fuel (t.skipInvalid (i + 1))).map ((i, t.ptr i) :: ·)

/-! ## Events and slots -/

/-- The events take the slots from `p` to `p'`, each constructing an object in a free slot or
destroying the one that is there. -/
def Explains : List (SlotEvent α) → (ℕ → Option α) → (ℕ → Option α) → Prop
  | [], p, p' => p' = p
  | .construct i x :: es, p, p' => p i = none ∧ Explains es (Function.update p i (some x)) p'
  | .destruct i x :: es, p, p' => p i = some x ∧ Explains es (Function.update p i none) p'

theorem Explains.append {es es' : List (SlotEvent α)} {p p' p'' : ℕ → Option α}
    (h : Explains es p p') (h' : Explains es' p' p'') : Explains (es ++ es') p p'' := by
  induction es generalizing p with
  | nil =>
    cases h
    exact h'
  | cons e es ih =>
    cases e with
    | construct i x => exact ⟨h.1, ih h.2⟩
    | destruct i x => exact ⟨h.1, ih h.2⟩

/-- The objects constructed in a slot. -/
def constructed (i : ℕ) (es : List (SlotEvent α)) : List α :=
  es.filterMap fun
    | .construct j x => if j = i then some x else none
    | .destruct _ _ => none

/-- The objects destroyed in a slot. -/
def destroyed (i : ℕ) (es : List (SlotEvent α)) : List α :=
  es.filterMap fun
    | .construct _ _ => none
    | .destruct j x => if j = i then some x else none

/-- In each slot, what was there and what has been constructed is what has been destroyed and what
is there. -/
theorem Explains.constructed_eq {es : List (SlotEvent α)} {p p' : ℕ → Option α}
    (h : Explains es p p') (i : ℕ) :
    (p i).toList ++ constructed i es = destroyed i es ++ (p' i).toList := by
  induction es generalizing p with
  | nil =>
    cases h
    simp [constructed, destroyed]
  | cons e es ih =>
    cases e with
    | construct j x =>
      have hrest := ih h.2
      by_cases hij : j = i
      · subst hij
        rw [h.1]
        rw [Function.update_self] at hrest
        simpa [constructed, destroyed] using hrest
      · rw [Function.update_of_ne (Ne.symm hij)] at hrest
        simpa [constructed, destroyed, hij] using hrest
    | destruct j x =>
      have hrest := ih h.2
      by_cases hij : j = i
      · subst hij
        rw [h.1]
        rw [Function.update_self] at hrest
        simpa [constructed, destroyed] using hrest
      · rw [Function.update_of_ne (Ne.symm hij)] at hrest
        simpa [constructed, destroyed, hij] using hrest

/-- An object stays in its slot until it is destroyed there. -/
theorem Explains.keeps {es : List (SlotEvent α)} {p p' : ℕ → Option α} (h : Explains es p p')
    {i : ℕ} {x : α} (hx : p i = some x) : p' i = some x ∨ .destruct i x ∈ es := by
  induction es generalizing p with
  | nil =>
    cases h
    exact .inl hx
  | cons e es ih =>
    cases e with
    | construct j y =>
      have hij : i ≠ j := by
        rintro rfl
        exact absurd (hx.symm.trans h.1) (by simp)
      exact (ih h.2 (by rwa [Function.update_of_ne hij])).imp_right (List.mem_cons_of_mem _)
    | destruct j y =>
      by_cases hij : i = j
      · subst hij
        have hxy : x = y := Option.some_inj.1 (hx.symm.trans h.1)
        exact .inr (hxy ▸ List.mem_cons_self)
      · exact (ih h.2 (by rwa [Function.update_of_ne hij])).imp_right (List.mem_cons_of_mem _)

/-- An object in a slot has been there, or was constructed there. -/
theorem Explains.origin {es : List (SlotEvent α)} {p p' : ℕ → Option α} (h : Explains es p p')
    {i : ℕ} {x : α} (hx : p' i = some x) : p i = some x ∨ .construct i x ∈ es := by
  induction es generalizing p with
  | nil =>
    cases h
    exact .inl hx
  | cons e es ih =>
    cases e with
    | construct j y =>
      rcases ih h.2 with hold | hnew
      · by_cases hij : i = j
        · subst hij
          rw [Function.update_self] at hold
          exact .inr (Option.some_inj.1 hold ▸ List.mem_cons_self)
        · rw [Function.update_of_ne hij] at hold
          exact .inl hold
      · exact .inr (List.mem_cons_of_mem _ hnew)
    | destruct j y =>
      rcases ih h.2 with hold | hnew
      · by_cases hij : i = j
        · subst hij
          rw [Function.update_self] at hold
          cases hold
        · rw [Function.update_of_ne hij] at hold
          exact .inl hold
      · exact .inr (List.mem_cons_of_mem _ hnew)

/-! ## The count -/

/-- The occupied slots, in order. -/
def occupiedSlots (t : StaticArray α N) : List ℕ := (List.range N).filter t.occupied

/-- `live_count_` is the number of occupied slots. -/
def Counted (t : StaticArray α N) : Prop := t.liveCount = t.occupiedSlots.length

/-- One slot more. -/
theorem length_filter_range {p q : ℕ → Bool} {i n : ℕ} (hi : i < n) (hp : p i = false)
    (hq : q i = true) (hne : ∀ j, j ≠ i → q j = p j) :
    ((List.range n).filter q).length = ((List.range n).filter p).length + 1 := by
  induction n with
  | zero => omega
  | succ n ih =>
    rw [List.range_succ, List.filter_append, List.filter_append, List.length_append,
      List.length_append]
    rcases Nat.lt_succ_iff_lt_or_eq.1 hi with hlt | rfl
    · rw [ih hlt, List.filter_singleton, List.filter_singleton, hne n (by omega)]
      omega
    · have hsame : (List.range i).filter q = (List.range i).filter p :=
        List.filter_congr fun j hj => hne j (by have := List.mem_range.1 hj; omega)
      simp [hsame, hp, hq]

theorem ptr_put {t : StaticArray α N} {i : ℕ} (hi : i < N) (x : Option α) (n : ℕ) :
    (⟨t.put i x, n⟩ : StaticArray α N).ptr = Function.update t.ptr i x := by
  funext j
  rw [ptr_mk_put]
  by_cases hij : j = i
  · subst hij
    rw [if_pos ⟨rfl, hi⟩, Function.update_self]
  · rw [if_neg fun h => hij h.1, Function.update_of_ne hij]

theorem occupied_put {t : StaticArray α N} {i : ℕ} (hi : i < N) (x : Option α) (n j : ℕ) :
    (⟨t.put i x, n⟩ : StaticArray α N).occupied j = if j = i then x.isSome else t.occupied j := by
  unfold occupied
  rw [ptr_put hi]
  by_cases hij : j = i
  · subst hij
    rw [Function.update_self, if_pos rfl]
  · rw [Function.update_of_ne hij, if_neg hij]

theorem Counted.insert {t : StaticArray α N} (h : t.Counted) {i : ℕ} (hi : i < N)
    (hfree : t.occupied i = false) (x : α) :
    Counted (⟨t.put i (some x), t.liveCount + 1⟩ : StaticArray α N) := by
  unfold Counted occupiedSlots at *
  rw [length_filter_range hi hfree (by simp [occupied_put hi])
    fun j hj => by simp [occupied_put hi, hj], ← h]

theorem Counted.remove {t : StaticArray α N} (h : t.Counted) {i : ℕ} (hi : i < N)
    (hocc : t.occupied i = true) :
    Counted (⟨t.put i none, t.liveCount - 1⟩ : StaticArray α N) := by
  unfold Counted occupiedSlots at *
  rw [h, length_filter_range hi (p := (⟨t.put i none, t.liveCount - 1⟩ : StaticArray α N).occupied)
    (by simp [occupied_put hi]) hocc fun j hj => by simp [occupied_put hi, hj]]
  rfl

theorem findFreeSlot_eq_some {t : StaticArray α N} {i : ℕ} :
    t.findFreeSlot = some i ↔
      i < N ∧ t.occupied i = false ∧ ∀ j < i, t.occupied j = true := by
  unfold findFreeSlot
  rw [List.find?_range_eq_some]
  simp only [Bool.not_eq_true', List.mem_range, Bool.not_eq_false']
  exact ⟨fun ⟨hi, hN, hj⟩ => ⟨hN, hi, hj⟩, fun ⟨hN, hi, hj⟩ => ⟨hi, hN, hj⟩⟩

theorem findFreeSlot_eq_none {t : StaticArray α N} :
    t.findFreeSlot = none ↔ ∀ i < N, t.occupied i = true := by
  simp [findFreeSlot]

/-! ## The operations, one by one -/

theorem construct_eq {t : StaticArray α N} {i : ℕ} (h : t.occupied i = false) (x : α) :
    t.construct i x = ⟨[.construct i x], .ok (t.put i (some x))⟩ := by
  unfold construct
  rw [if_neg (by simp [h])]
  rfl

theorem destruct_eq {t : StaticArray α N} {i : ℕ} {x : α} (h : t.ptr i = some x) :
    t.destruct i = ⟨[.destruct i x], .ok (t.put i none)⟩ := by
  unfold destruct
  rw [h]
  rfl

theorem emplaceNew_eq {t : StaticArray α N} {i : ℕ} (h : t.findFreeSlot = some i) (x : α) :
    t.emplaceNew x =
      ⟨[.construct i x], .ok (⟨t.put i (some x), t.liveCount + 1⟩, i)⟩ := by
  unfold emplaceNew
  rw [h]
  dsimp only
  rw [construct_eq (findFreeSlot_eq_some.1 h).2.1]
  rfl

/-- `emplaceNew` is `emplace` with its events. -/
theorem result_emplaceNew (t : StaticArray α N) (x : α) :
    (t.emplaceNew x).result = t.emplace x := by
  unfold emplace
  cases h : t.findFreeSlot with
  | none =>
    unfold emplaceNew
    rw [h]
    rfl
  | some i => rw [emplaceNew_eq h]

theorem emplaceAt_eq {t : StaticArray α N} {i : ℕ} (hi : i < N) (h : t.occupied i = false) (x : α) :
    t.emplaceAt i x = ⟨[.construct i x], .ok ⟨t.put i (some x), t.liveCount + 1⟩⟩ := by
  unfold emplaceAt
  rw [if_neg (by omega), if_neg (by simp [h]), construct_eq h]
  rfl

theorem eraseAt_eq {t : StaticArray α N} {i : ℕ} {x : α} (h : t.ptr i = some x) :
    t.eraseAt i = ⟨[.destruct i x], .ok (⟨t.put i none, t.liveCount - 1⟩, true)⟩ := by
  unfold eraseAt
  rw [if_neg (by simp [occupied, h]), destruct_eq h]
  rfl

/-- `eraseAt` is `erase` with its events. -/
theorem result_eraseAt (t : StaticArray α N) (i : ℕ) :
    (t.eraseAt i).result = .ok (t.erase i, t.occupied i) := by
  cases h : t.ptr i with
  | none =>
    have hocc : t.occupied i = false := by simp [occupied, h]
    simp [eraseAt, erase, hocc]
  | some x =>
    have hocc : t.occupied i = true := by simp [occupied, h]
    simp [eraseAt_eq h, erase, hocc]

/-- What an operation that returns does to the slots and the count. -/
def Sound (t : StaticArray α N) (m : L α (StaticArray α N)) : Prop :=
  ∀ t', m.result = .ok t' → Explains m.trace t.ptr t'.ptr ∧ (t.Counted → t'.Counted)

theorem sound_construct {t : StaticArray α N} {i : ℕ} (hi : i < N) (h : t.occupied i = false)
    (x : α) :
    t.Sound ⟨[.construct i x], .ok ⟨t.put i (some x), t.liveCount + 1⟩⟩ := by
  rintro t' ⟨⟩
  refine ⟨⟨?_, ptr_put hi _ _⟩, fun hc => hc.insert hi h x⟩
  simpa [occupied] using h

theorem sound_destruct {t : StaticArray α N} {i : ℕ} {x : α} (h : t.ptr i = some x) :
    t.Sound ⟨[.destruct i x], .ok ⟨t.put i none, t.liveCount - 1⟩⟩ := by
  rintro t' ⟨⟩
  exact ⟨⟨h, ptr_put (ptr_lt h) _ _⟩, fun hc => hc.remove (ptr_lt h) (by simp [occupied, h])⟩

/-- The loop of `clear` empties its slots. -/
theorem clearSlots_spec (is : List ℕ) (t : StaticArray α N) :
    ∃ t', (clearSlots is t).result = .ok t' ∧ Explains (clearSlots is t).trace t.ptr t'.ptr ∧
      ∀ i, t'.ptr i = if i ∈ is then none else t.ptr i := by
  induction is generalizing t with
  | nil => exact ⟨t, rfl, rfl, fun i => rfl⟩
  | cons j is ih =>
    cases hj : t.ptr j with
    | none =>
      have hrun : clearSlots (j :: is) t = clearSlots is t := by
        rw [clearSlots, if_neg (by simp [occupied, hj])]
      obtain ⟨t', hres, hexp, hptr⟩ := ih t
      rw [hrun]
      refine ⟨t', hres, hexp, fun i => ?_⟩
      rw [hptr i]
      by_cases hij : i = j
      · subst hij
        simp [hj]
      · simp [hij]
    | some x =>
      have hN := ptr_lt hj
      have hrun : clearSlots (j :: is) t =
          ⟨.destruct j x :: (clearSlots is ⟨t.put j none, t.liveCount⟩).trace,
            (clearSlots is ⟨t.put j none, t.liveCount⟩).result⟩ := by
        rw [clearSlots, if_pos (by simp [occupied, hj]), destruct_eq hj]
        rfl
      obtain ⟨t', hres, hexp, hptr⟩ := ih ⟨t.put j none, t.liveCount⟩
      rw [hrun]
      refine ⟨t', hres, ⟨hj, ptr_put hN none t.liveCount ▸ hexp⟩, fun i => ?_⟩
      rw [hptr i, ptr_put hN]
      by_cases hij : i = j
      · subst hij
        simp
      · simp [hij]

theorem ptr_of_le {t : StaticArray α N} {i : ℕ} (h : N ≤ i) : t.ptr i = none :=
  dif_neg (Nat.not_lt.2 h)

/-- `clear` returns, and leaves nothing. -/
theorem clear_spec (t : StaticArray α N) :
    ∃ t', t.clear.result = .ok t' ∧ Explains t.clear.trace t.ptr t'.ptr ∧
      (∀ i, t'.ptr i = none) ∧ t'.liveCount = 0 := by
  obtain ⟨t', hres, hexp, hptr⟩ := clearSlots_spec (List.range N) t
  refine ⟨⟨t'.slots, 0⟩, ?_, ?_, fun i => ?_, rfl⟩
  · exact Traced.result_bind.2 ⟨t', hres, rfl⟩
  · rw [clear, Traced.trace_bind hres]
    exact hexp.append rfl
  · change t'.ptr i = none
    rw [hptr i]
    split_ifs with hi
    · rfl
    · exact ptr_of_le (by simpa using hi)

theorem occupied_eq_false {t : StaticArray α N} {i : ℕ} :
    t.occupied i = false ↔ t.ptr i = none := by
  simp [occupied]

theorem occupiedSlots_eq_nil {t : StaticArray α N} :
    t.occupiedSlots = [] ↔ ∀ i, t.occupied i = false := by
  unfold occupiedSlots
  rw [List.filter_eq_nil_iff]
  constructor
  · intro h i
    rcases Nat.lt_or_ge i N with hi | hi
    · simpa using h i (List.mem_range.2 hi)
    · exact occupied_eq_false.2 (ptr_of_le hi)
  · intro h i _
    simp [h i]

theorem length_occupiedSlots_eq {t : StaticArray α N} :
    t.occupiedSlots.length = N ↔ ∀ i < N, t.occupied i = true := by
  have h := List.length_filter_eq_length_iff (p := t.occupied) (l := List.range N)
  rw [List.length_range] at h
  exact h.trans (by simp)

/-- Every operation is sound. -/
theorem sound_step (t : StaticArray α N) (op : ArrayOp α) : t.Sound (t.step op) := by
  cases op with
  | emplace x =>
    cases hf : t.findFreeSlot with
    | none =>
      have hrun : t.step (.emplace x) = lift (.error (.panic "StaticArray full")) := by
        rw [step, emplaceNew, hf]
        rfl
      rw [hrun]
      exact fun t' h => absurd h nofun
    | some i =>
      have hrun : t.step (.emplace x) =
          ⟨[.construct i x], .ok ⟨t.put i (some x), t.liveCount + 1⟩⟩ := by
        rw [step, emplaceNew_eq hf]
        rfl
      obtain ⟨hi, hfree, -⟩ := findFreeSlot_eq_some.1 hf
      rw [hrun]
      exact sound_construct hi hfree x
  | emplaceAt i x =>
    change t.Sound (t.emplaceAt i x)
    by_cases hi : i ≥ N
    · rw [emplaceAt, if_pos hi]
      exact fun t' h => absurd h nofun
    · by_cases hocc : t.occupied i = true
      · rw [emplaceAt, if_neg hi, if_pos hocc]
        exact fun t' h => absurd h nofun
      · rw [Bool.not_eq_true] at hocc
        rw [emplaceAt_eq (not_le.1 hi) hocc]
        exact sound_construct (not_le.1 hi) hocc x
  | erase i =>
    cases hi : t.ptr i with
    | none =>
      have hrun : t.step (.erase i) = pure t := by
        rw [step, eraseAt, if_pos (by simp [occupied, hi])]
        rfl
      rw [hrun]
      rintro t' ⟨⟩
      exact ⟨rfl, id⟩
    | some x =>
      have hrun : t.step (.erase i) =
          ⟨[.destruct i x], .ok ⟨t.put i none, t.liveCount - 1⟩⟩ := by
        rw [step, eraseAt_eq hi]
        rfl
      rw [hrun]
      exact sound_destruct hi
  | clear =>
    obtain ⟨t', hres, hexp, hnone, hzero⟩ := clear_spec t
    intro t'' h
    cases hres.symm.trans h
    refine ⟨hexp, fun _ => ?_⟩
    unfold Counted
    rw [hzero, occupiedSlots_eq_nil.2 fun i => occupied_eq_false.2 (hnone i)]
    rfl

/-- Every run is sound. -/
theorem sound_run (ops : List (ArrayOp α)) (t : StaticArray α N) : t.Sound (t.run ops) := by
  induction ops generalizing t with
  | nil =>
    rintro t' ⟨⟩
    exact ⟨rfl, id⟩
  | cons op ops ih =>
    intro t' h
    obtain ⟨t₁, hstep, hrun⟩ := Traced.result_bind.1 h
    obtain ⟨hexp, hcount⟩ := sound_step t op t₁ hstep
    obtain ⟨hexp', hcount'⟩ := ih t₁ t' hrun
    refine ⟨?_, hcount' ∘ hcount⟩
    rw [run, Traced.trace_bind hstep]
    exact hexp.append hexp'

theorem counted_empty : (empty : StaticArray α N).Counted := by
  have hnil : (empty : StaticArray α N).occupiedSlots = [] :=
    occupiedSlots_eq_nil.2 fun i => by simp [occupied, ptr, empty]
  unfold Counted
  rw [hnil]
  rfl

theorem ptr_empty (i : ℕ) : (empty : StaticArray α N).ptr i = none := by
  simp [ptr, empty]

/-! ## The loop -/

/-- `skip_invalid` stops at the next occupied slot, or at the end. -/
theorem skipInvalid_spec (t : StaticArray α N) {i : ℕ} (hi : i ≤ N) :
    i ≤ t.skipInvalid i ∧ t.skipInvalid i ≤ N ∧
      (t.skipInvalid i = N ∨ t.occupied (t.skipInvalid i) = true) ∧
      ∀ j, i ≤ j → j < t.skipInvalid i → t.occupied j = false := by
  fun_induction skipInvalid t i with
  | case1 i h ih =>
    obtain ⟨hle, hN, hstop, hskip⟩ := ih h.1
    refine ⟨by omega, hN, hstop, fun j hj hlt => ?_⟩
    rcases Nat.eq_or_lt_of_le hj with rfl | hgt
    · exact h.2
    · exact hskip j hgt hlt
  | case2 i h =>
    refine ⟨Nat.le_refl i, hi, ?_, fun j hj hlt => absurd hlt (by omega)⟩
    rcases Nat.eq_or_lt_of_le hi with rfl | hlt
    · exact .inl rfl
    · exact .inr (by simpa using fun hocc => h ⟨hlt, hocc⟩)

/-- The occupied slots from `i` on. -/
def occupiedFrom (t : StaticArray α N) (i : ℕ) : List ℕ :=
  (List.range' i (N - i)).filter t.occupied

theorem occupiedFrom_of_free {t : StaticArray α N} {i : ℕ} (hi : i < N) (h : t.occupied i = false) :
    t.occupiedFrom i = t.occupiedFrom (i + 1) := by
  unfold occupiedFrom
  rw [show N - i = N - (i + 1) + 1 by omega, List.range'_succ, List.filter_cons, h]
  rfl

theorem occupiedFrom_of_occupied {t : StaticArray α N} {i : ℕ} (hi : i < N)
    (h : t.occupied i = true) : t.occupiedFrom i = i :: t.occupiedFrom (i + 1) := by
  unfold occupiedFrom
  rw [show N - i = N - (i + 1) + 1 by omega, List.range'_succ, List.filter_cons, if_pos h]

theorem occupiedFrom_skipInvalid (t : StaticArray α N) (i : ℕ) :
    t.occupiedFrom (t.skipInvalid i) = t.occupiedFrom i := by
  fun_induction skipInvalid t i with
  | case1 i h ih => exact ih.trans (occupiedFrom_of_free h.1 h.2).symm
  | case2 i h => rfl

/-- From an iterator that stands still, the loop visits the occupied slots that are left. -/
theorem forLoop_eq (t : StaticArray α N) {fuel i : ℕ} (hi : i ≤ N)
    (hstop : i = N ∨ t.occupied i = true) (hfuel : N - i < fuel) :
    t.forLoop fuel i = some ((t.occupiedFrom i).map fun j => (j, t.ptr j)) := by
  have hend : t.endIndex = N := by
    obtain ⟨hle, hN, -, -⟩ := t.skipInvalid_spec (Nat.le_refl N)
    exact Nat.le_antisymm hN hle
  induction fuel generalizing i with
  | zero => omega
  | succ fuel ih =>
    rw [forLoop, hend]
    rcases Nat.eq_or_lt_of_le hi with rfl | hlt
    · simp [occupiedFrom]
    · obtain ⟨hle, hN, hstop', -⟩ := t.skipInvalid_spec (i := i + 1) hlt
      rw [if_neg (by omega), ih hN hstop' (by omega), occupiedFrom_skipInvalid,
        occupiedFrom_of_occupied hlt (hstop.resolve_left (by omega))]
      rfl

theorem forLoop_begin (t : StaticArray α N) {fuel : ℕ} (hfuel : N < fuel) :
    t.forLoop fuel t.beginIndex = some (t.occupiedSlots.map fun i => (i, t.ptr i)) := by
  obtain ⟨-, hN, hstop, -⟩ := t.skipInvalid_spec (Nat.zero_le N)
  unfold beginIndex
  rw [t.forLoop_eq hN hstop (by omega), occupiedFrom_skipInvalid, occupiedFrom, Nat.sub_zero,
    ← List.range_eq_range']
  rfl

/-! ## What holds in every run -/

/-- An array and its count, what `emplace` does, what an operation does to the objects, and which
slots a loop visits. -/
structure Represents (t : StaticArray α N) : Prop where
  count : t.liveCount = t.occupiedSlots.length
  full_iff : t.full = true ↔ ∀ i < N, t.occupied i = true
  empty_iff : t.isEmpty = true ↔ ∀ i, t.occupied i = false
  emplace_panics (x : α) : (∃ msg, (t.emplaceNew x).result = .error (.panic msg)) ↔
    ∀ i < N, t.occupied i = true
  emplace_lowest (x : α) (t' : StaticArray α N) (i : ℕ) :
    (t.emplaceNew x).result = .ok (t', i) →
      i < N ∧ t.occupied i = false ∧ (∀ j < i, t.occupied j = true) ∧
        t'.ptr = Function.update t.ptr i (some x)
  stays (op : ArrayOp α) (t' : StaticArray α N) : (t.step op).result = .ok t' → ∀ i x,
    (t.ptr i = some x → t'.ptr i = some x ∨ .destruct i x ∈ (t.step op).trace) ∧
      (t'.ptr i = some x → t.ptr i = some x ∨ .construct i x ∈ (t.step op).trace)
  loop (fuel : ℕ) : N < fuel →
    t.forLoop fuel t.beginIndex = some (t.occupiedSlots.map fun i => (i, t.ptr i))

theorem Counted.represents {t : StaticArray α N} (h : t.Counted) : t.Represents where
  count := h
  full_iff := by
    rw [full, beq_iff_eq, h]
    exact length_occupiedSlots_eq
  empty_iff := by
    rw [isEmpty, beq_iff_eq, h, List.length_eq_zero_iff]
    exact occupiedSlots_eq_nil
  emplace_panics x := by
    rw [← findFreeSlot_eq_none]
    cases hf : t.findFreeSlot with
    | none => exact ⟨fun _ => rfl, fun _ => ⟨"StaticArray full", by rw [emplaceNew, hf]; rfl⟩⟩
    | some i =>
      rw [emplaceNew_eq hf]
      exact ⟨fun ⟨_, hmsg⟩ => absurd hmsg nofun, nofun⟩
  emplace_lowest x t' i hres := by
    cases hf : t.findFreeSlot with
    | none =>
      rw [emplaceNew, hf] at hres
      exact absurd hres nofun
    | some k =>
      rw [emplaceNew_eq hf] at hres
      cases hres
      obtain ⟨hi, hfree, hlow⟩ := findFreeSlot_eq_some.1 hf
      exact ⟨hi, hfree, hlow, ptr_put hi _ _⟩
  stays op t' hres i x :=
    have hexp := (sound_step t op t' hres).1
    ⟨hexp.keeps, hexp.origin⟩
  loop _ hfuel := t.forLoop_begin hfuel

/-- In each slot the objects constructed are those destroyed, in the same order, and the one that
lives, if there is one; behind the destructor there is none. -/
structure Lifetimes (es : List (SlotEvent α)) (t : StaticArray α N) : Prop where
  live (i : ℕ) : constructed i es = destroyed i es ++ (t.ptr i).toList
  ended : ∃ t', t.clear.result = .ok t' ∧
    ∀ i, constructed i (es ++ t.clear.trace) = destroyed i (es ++ t.clear.trace)

theorem staticArray_run (ops : List (ArrayOp α)) (t : StaticArray α N)
    (h : ((empty : StaticArray α N).run ops).result = .ok t) :
    t.Represents ∧ Lifetimes ((empty : StaticArray α N).run ops).trace t := by
  obtain ⟨hexp, hcount⟩ := sound_run ops empty t h
  refine ⟨(hcount counted_empty).represents, ⟨fun i => ?_, ?_⟩⟩
  · have hslot := hexp.constructed_eq i
    rwa [ptr_empty] at hslot
  · obtain ⟨t', hres, hclear, hnone, -⟩ := clear_spec t
    refine ⟨t', hres, fun i => ?_⟩
    have hslot := (hexp.append hclear).constructed_eq i
    rw [ptr_empty, hnone i] at hslot
    simpa using hslot

theorem staticArray_run_holes : ∃ t : StaticArray ℕ 4,
    ((empty : StaticArray ℕ 4).run [.emplace 5, .emplaceAt 2 7, .erase 0]).result = .ok t ∧
      t.occupiedSlots = [2] ∧ t.Represents :=
  ⟨_, rfl, by decide, (staticArray_run [.emplace 5, .emplaceAt 2 7, .erase 0] _ rfl).1⟩

end Ospp.StaticArray
