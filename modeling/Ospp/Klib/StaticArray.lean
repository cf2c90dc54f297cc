import Mathlib.Tactic
import Ospp.Lib.Word

/-!
# `kstd::StaticArray` and the ways the kernel stops

A `StaticArray<T, N>` is a table of `N` slots, each holding an object or nothing, with a redundant
count of the occupied ones. `Halt` lists the ways in which kernel code stops for good: `kstd::panic`
with its message, a failed `assert`, an unmapped access, a loop that does not end, and a write over
memory that the kernel itself runs on, after which its code says nothing of what it does.
-/

namespace Ospp

/-- The kernel has stopped. -/
inductive Halt where
  | panic (msg : String)
  | assertion (expr : String)
  | pageFault (addr : ℕ)
  | diverged
  | corrupt (what : String)
  deriving DecidableEq, Repr

/-- Kernel code: a result, or the reason why the kernel stopped. -/
abbrev K (α : Type) := Except Halt α

theorem K.bind_eq_ok {α β : Type} {x : K α} {f : α → K β} {b : β} :
    (x >>= f) = .ok b ↔ ∃ a, x = .ok a ∧ f a = .ok b := by
  cases x with
  | error e => exact ⟨fun h => (by cases h), fun ⟨a, h, _⟩ => (by cases h)⟩
  | ok a => exact ⟨fun h => ⟨a, rfl, h⟩, fun ⟨a', h, h'⟩ => (by cases h; exact h')⟩

theorem K.bind_eq_error {α β : Type} {x : K α} {f : α → K β} {e : Halt} :
    (x >>= f) = .error e ↔ x = .error e ∨ ∃ a, x = .ok a ∧ f a = .error e := by
  cases x with
  | error e' =>
    refine ⟨fun h => (by cases h; exact Or.inl rfl), ?_⟩
    rintro (h | ⟨a, h, _⟩)
    · cases h
      rfl
    · cases h
  | ok a =>
    refine ⟨fun h => Or.inr ⟨a, rfl, h⟩, ?_⟩
    rintro (h | ⟨a', h, h'⟩)
    · cases h
    · cases h
      exact h'

/-- The code returns, with a result that passes the test `p`. -/
def K.holds {α : Type} (x : K α) (p : α → Bool) : Bool :=
  match x with
  | .ok a => p a
  | .error _ => false

theorem K.exists_of_holds {α : Type} {x : K α} {p : α → Bool} (h : x.holds p = true) :
    ∃ a, x = .ok a ∧ p a = true := by
  cases x with
  | error e => cases h
  | ok a => exact ⟨a, rfl, h⟩

/-- `assert(b)`. -/
def kassert (b : Bool) (expr : String) : K Unit := if b then .ok () else .error (.assertion expr)

theorem kassert_eq_ok {b : Bool} {expr : String} {u : Unit} :
    kassert b expr = .ok u ↔ b = true := by
  unfold kassert
  cases b <;> simp

/-- `kstd::StaticArray<T, N>`. -/
structure StaticArray (α : Type) (N : ℕ) where
  slots : Fin N → Option α
  liveCount : ℕ

namespace StaticArray

variable {α : Type} {N : ℕ}

/-- A new array: every slot is free. -/
def empty : StaticArray α N := ⟨fun _ => none, 0⟩

/-- The object in a slot, if there is one. -/
def ptr (t : StaticArray α N) (i : ℕ) : Option α := if h : i < N then t.slots ⟨i, h⟩ else none

def occupied (t : StaticArray α N) (i : ℕ) : Bool := (t.ptr i).isSome

/-- `find_free_slot`: the lowest free slot. -/
def findFreeSlot (t : StaticArray α N) : Option ℕ :=
  (List.range N).find? fun i => !t.occupied i

/-- The slot `i` holds `x`. -/
def put (t : StaticArray α N) (i : ℕ) (x : Option α) : Fin N → Option α :=
  fun j => if j.val = i then x else t.slots j

/-- `emplace`: construct an object in the lowest free slot, and return that slot. -/
def emplace (t : StaticArray α N) (x : α) : K (StaticArray α N × ℕ) :=
  match t.findFreeSlot with
  | none => .error (.panic "StaticArray full")
  | some i => .ok (⟨t.put i (some x), t.liveCount + 1⟩, i)

/-- `erase`. -/
def erase (t : StaticArray α N) (i : ℕ) : StaticArray α N :=
  if t.occupied i then ⟨t.put i none, t.liveCount - 1⟩ else t

/-- Assign through the reference to the object in slot `i`. -/
def modify (t : StaticArray α N) (i : ℕ) (f : α → α) : StaticArray α N :=
  ⟨t.put i ((t.ptr i).map f), t.liveCount⟩

/-! ## Reading back -/

theorem ptr_mk_put (t : StaticArray α N) (i j n : ℕ) (x : Option α) :
    (⟨t.put i x, n⟩ : StaticArray α N).ptr j = if j = i ∧ j < N then x else t.ptr j := by
  unfold ptr put
  by_cases hj : j < N
  · by_cases hij : j = i
    · subst hij; simp [hj]
    · simp [hj, hij]
  · simp [hj]

theorem ptr_lt {t : StaticArray α N} {i : ℕ} {x : α} (h : t.ptr i = some x) : i < N := by
  unfold ptr at h
  by_contra hn
  simp [hn] at h

theorem occupied_iff {t : StaticArray α N} {i : ℕ} : t.occupied i = true ↔ ∃ x, t.ptr i = some x := by
  unfold occupied; rw [Option.isSome_iff_exists]

/-- The slot `emplace` fills was free; no other slot changes. -/
theorem emplace_eq_ok {t t' : StaticArray α N} {x : α} {i : ℕ} (h : t.emplace x = .ok (t', i)) :
    i < N ∧ t.ptr i = none ∧ t'.ptr i = some x ∧ (∀ j, j ≠ i → t'.ptr j = t.ptr j) ∧
      t'.liveCount = t.liveCount + 1 := by
  unfold emplace at h
  cases hf : t.findFreeSlot with
  | none => rw [hf] at h; cases h
  | some k =>
    rw [hf] at h
    cases h
    have hocc := List.find?_some hf
    have hk : i < N := List.mem_range.1 (List.mem_of_find?_eq_some hf)
    refine ⟨hk, ?_, ?_, fun j hj => ?_, rfl⟩
    · simpa [occupied] using hocc
    · rw [ptr_mk_put]; simp [hk]
    · rw [ptr_mk_put, if_neg (fun e => hj e.1)]

theorem findFreeSlot_of_emplace {t t' : StaticArray α N} {x : α} {i : ℕ}
    (h : t.emplace x = .ok (t', i)) : t.findFreeSlot = some i := by
  unfold emplace at h
  cases hf : t.findFreeSlot with
  | none => rw [hf] at h; cases h
  | some k => rw [hf] at h; cases h; rfl

theorem ptr_modify (t : StaticArray α N) (i j : ℕ) (f : α → α) :
    (t.modify i f).ptr j = if j = i then (t.ptr j).map f else t.ptr j := by
  unfold modify
  rw [ptr_mk_put]
  by_cases hij : j = i
  · subst hij
    by_cases hj : j < N
    · simp [hj]
    · simp [hj, ptr]
  · simp [hij]

theorem ptr_erase (t : StaticArray α N) (i j : ℕ) :
    (t.erase i).ptr j = if j = i then none else t.ptr j := by
  unfold erase
  by_cases hocc : t.occupied i = true
  · rw [if_pos hocc, ptr_mk_put]
    by_cases hij : j = i
    · by_cases hj : j < N
      · rw [if_pos ⟨hij, hj⟩, if_pos hij]
      · rw [if_neg fun h => hj h.2, if_pos hij]
        exact dif_neg hj
    · rw [if_neg fun h => hij h.1, if_neg hij]
  · rw [if_neg hocc]
    split_ifs with hij
    · rw [hij]
      unfold occupied at hocc
      simpa using hocc
    · rfl

@[simp] theorem liveCount_modify (t : StaticArray α N) (i : ℕ) (f : α → α) :
    (t.modify i f).liveCount = t.liveCount := rfl

/-! ## Arrays filled from the front -/

/-- The objects stand in the first slots, in order. -/
def ofList (l : List α) : StaticArray α N := ⟨fun i => l[i.val]?, l.length⟩

/-- The objects in the slots, in order. -/
def items (t : StaticArray α N) : List α := (List.range N).filterMap t.ptr

theorem ptr_ofList {l : List α} (i : ℕ) (hl : l.length ≤ N) :
    (ofList l : StaticArray α N).ptr i = l[i]? := by
  unfold ptr
  split_ifs with h
  · rfl
  · rw [List.getElem?_eq_none (by omega)]

/-- The next object goes behind the others. -/
theorem emplace_ofList {l : List α} (x : α) (h : l.length < N) :
    (ofList l : StaticArray α N).emplace x = .ok (ofList (l ++ [x]), l.length) := by
  have hfree : (ofList l : StaticArray α N).findFreeSlot = some l.length := by
    unfold findFreeSlot
    rw [List.find?_range_eq_some]
    refine ⟨?_, List.mem_range.2 h, fun j hj => ?_⟩
    · simp [occupied, ptr_ofList _ h.le]
    · simp [occupied, ptr_ofList _ h.le, hj]
  unfold emplace
  rw [hfree]
  have hslots : (ofList l : StaticArray α N).put l.length (some x) =
      (ofList (l ++ [x]) : StaticArray α N).slots := by
    funext j
    show (if j.val = l.length then some x else l[j.val]?) = (l ++ [x])[j.val]?
    split_ifs with hj
    · rw [hj, List.getElem?_concat_length]
    · rcases Nat.lt_or_ge j.val l.length with hlt | hge
      · rw [List.getElem?_append_left hlt]
      · rw [List.getElem?_eq_none hge, List.getElem?_eq_none (by simp; omega)]
  show Except.ok (_, l.length) = _
  rw [hslots]
  simp [ofList]

theorem emplace_full {l : List α} (x : α) (h : N ≤ l.length) :
    (ofList l : StaticArray α N).emplace x = .error (.panic "StaticArray full") := by
  have hfree : (ofList l : StaticArray α N).findFreeSlot = none := by
    unfold findFreeSlot
    rw [List.find?_eq_none]
    intro i hi
    rw [List.mem_range] at hi
    simp [occupied, ptr, ofList, hi, List.getElem?_eq_getElem (show i < l.length by omega)]
  unfold emplace
  rw [hfree]

theorem items_ofList {l : List α} (h : l.length ≤ N) : (ofList l : StaticArray α N).items = l := by
  have hfront : ∀ n, (List.range n).filterMap (fun i => l[i]?) = l.take n := by
    intro n
    induction n with
    | zero => rfl
    | succ n ih =>
      rw [List.range_succ, List.filterMap_append, ih, List.take_add_one]
      cases hn : l[n]? <;> simp [hn]
  unfold items
  rw [List.filterMap_congr fun i _ => ptr_ofList i h, hfront, List.take_of_length_le h]

end StaticArray

end Ospp
