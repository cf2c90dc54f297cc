import Mathlib.Data.List.Sort
import Ospp.Lib.LinkRing
import Ospp.Mm.Heap

/-!
# The free list of the heap

What `findSmallestChunk`, `insertChunk` and `removeChunk` do to the circular list of free chunks.
`Listed h fl` says that the list holds the chunks at the addresses `fl`, in this order; the rules
below give each operation's effect on `fl` and leave every other word as it is.

`Allowed hd W U S M` is what heap code may do while it runs: read inside the heap, write the words
in `W` and the list head, unmap what `U` permits, where `S` holds touch the header behind the end,
and where `M` holds map pages past the end of the address space.
-/

namespace Ospp

open Cmd

namespace Heap

/-- The word lies in the heap, or is the list head's. -/
def InHeap (hd e a : ℕ) : Prop := (heapStart ≤ a ∧ a + 4 ≤ e) ∨ a = hd ∨ a = hd + 4

/-- Accesses inside the heap that write words of `W` only. -/
def Allowed (hd : ℕ) (W : ℕ → Prop) (U : ℕ → ℕ → Prop) (S : ℕ → Prop) (M : Prop) :
    HeapEvent → Prop
  | .read a e => InHeap hd e a ∨ (S e ∧ a = e + 4)
  | .write a e => (InHeap hd e a ∧ (W a ∨ a = hd ∨ a = hd + 4)) ∨ (S e ∧ a = e + 4)
  | .unmap a size => U a size
  | .remap _ _ => M
  | .retry depth => depth = 0

/-- Store a word. -/
def write (h : Heap) (a v : ℕ) : Heap := { h with mem := h.mem.write32 a v }

@[simp] theorem write_endAddr (h : Heap) (a v : ℕ) : (h.write a v).endAddr = h.endAddr := rfl

@[simp] theorem write_head (h : Heap) (a v : ℕ) : (h.write a v).head = h.head := rfl

@[simp] theorem write_mem (h : Heap) (a v : ℕ) : (h.write a v).mem = h.mem.write32 a v := rfl

/-- The heap object lies in the identity window, and the heap ends where it may. -/
structure Sane (h : Heap) : Prop where
  head_pos : 0 < h.head
  head_aligned : h.head % 4 = 0
  head_low : h.head + 8 ≤ 4194304
  endOk : HeapEndOk h.endAddr

section

variable {env : HeapEnv} {W : ℕ → Prop} {U : ℕ → ℕ → Prop} {S : ℕ → Prop} {M err : Prop} {h : Heap}

theorem Sane.bounds (hs : h.Sane) : h.endAddr % 4096 = 0 ∧ 17825792 ≤ h.endAddr ∧
    h.endAddr ≤ 33554432 := hs.endOk

theorem Sane.write (hs : h.Sane) (a v : ℕ) : (h.write a v).Sane := ⟨hs.1, hs.2, hs.3, hs.4⟩

theorem mapped_of_inHeap (hs : h.Sane) {a : ℕ} (ha : InHeap h.head h.endAddr a) :
    (h.mapped env a && h.mapped env (Word32.add a 3)) = true := by
  have hlow := hs.head_low
  have hb := hs.bounds
  rcases ha with ⟨h1, h2⟩ | ha
  · rw [Word32.add_eq (by omega), Bool.and_eq_true]
    unfold mapped
    simp only [Bool.or_eq_true, Bool.and_eq_true, decide_eq_true_eq]
    exact ⟨Or.inl ⟨h1, by omega⟩, Or.inl ⟨by omega, by omega⟩⟩
  · rw [Word32.add_eq (by omega), Bool.and_eq_true]
    unfold mapped
    rw [env.ext_identity _ (by omega), env.ext_identity _ (by omega)]
    simp

theorem wp_load (hs : h.Sane) {a : ℕ} {Q : ℕ → Heap → Prop} (ha : InHeap h.head h.endAddr a)
    (hQ : Q (h.mem.read32 a) h) : Wp (Allowed h.head W U S M) err (load env a) Q h := by
  unfold load
  refine .bind (.get ?_)
  rw [if_pos (mapped_of_inHeap hs ha)]
  exact .bind (.emit (Or.inl ha) (.pure hQ))

theorem wp_store (hs : h.Sane) {a v : ℕ} {Q : Unit → Heap → Prop}
    (ha : InHeap h.head h.endAddr a) (hW : W a ∨ a = h.head ∨ a = h.head + 4)
    (hQ : Q () (h.write a v)) : Wp (Allowed h.head W U S M) err (store env a v) Q h := by
  unfold store
  refine .bind (.get ?_)
  rw [if_pos (mapped_of_inHeap hs ha)]
  exact .bind (.emit (Or.inl ⟨ha, hW⟩) (.modify hQ))

/-! ## The list -/

/-- The list holds the chunks at these addresses, in this order. -/
structure Listed (h : Heap) (fl : List ℕ) : Prop where
  sane : h.Sane
  ring : LinkRing h.mem h.head (fl.map (· + 8))
  nodup : fl.Nodup
  apart : ∀ a ∈ fl, ∀ b ∈ fl, a ≠ b → a + 16 ≤ b ∨ b + 16 ≤ a
  range : ∀ a ∈ fl, a % 8 = 0 ∧ 16777216 ≤ a ∧ a + 16 ≤ h.endAddr

/-- The node a position of the list stands for: a chunk's, or the head behind the last. -/
def nodeOf (h : Heap) : List ℕ → ℕ
  | [] => h.head
  | a :: _ => a + 8

@[simp] theorem nodeOf_nil : nodeOf h [] = h.head := rfl

@[simp] theorem nodeOf_cons (a : ℕ) (l : List ℕ) : nodeOf h (a :: l) = a + 8 := rfl

/-- The node before a position. -/
def nodeBefore (h : Heap) (l : List ℕ) : ℕ := nodeOf h l.getLast?.toList

/-- The words of the list. -/
def ListWord (h : Heap) (fl : List ℕ) (b : ℕ) : Prop :=
  b = h.head ∨ b = h.head + 4 ∨ ∃ x ∈ fl, b = x + 8 ∨ b = x + 12

/-- Every aligned word except those of the list is the same. -/
def SameBut (h h' : Heap) (fl : List ℕ) : Prop :=
  ∀ b, b % 4 = 0 → b < 4294967296 → ¬ ListWord h fl b → h'.mem.read32 b = h.mem.read32 b

theorem Listed.nodesApart {fl : List ℕ} (hl : Listed h fl) :
    NodesApart (h.head :: fl.map (· + 8)) := by
  have hlow := hl.sane.head_low
  have hb := hl.sane.bounds
  refine ⟨?_, ?_, ?_⟩
  · rw [List.nodup_cons]
    refine ⟨fun hm => ?_, (List.nodup_map_iff fun a b hab => by omega).2 hl.nodup⟩
    obtain ⟨a, ha, hah⟩ := List.mem_map.1 hm
    have := hl.range a ha
    omega
  · intro u hu v hv huv
    rcases List.mem_cons.1 hu with rfl | hu <;> rcases List.mem_cons.1 hv with rfl | hv
    · exact absurd rfl huv
    · obtain ⟨b, hb, rfl⟩ := List.mem_map.1 hv
      have := hl.range b hb
      omega
    · obtain ⟨a, ha, rfl⟩ := List.mem_map.1 hu
      have := hl.range a ha
      omega
    · obtain ⟨a, ha, rfl⟩ := List.mem_map.1 hu
      obtain ⟨b, hb, rfl⟩ := List.mem_map.1 hv
      have := hl.apart a ha b hb (by omega)
      omega
  · intro u hu
    rcases List.mem_cons.1 hu with rfl | hu
    · omega
    · obtain ⟨a, ha, rfl⟩ := List.mem_map.1 hu
      have := hl.range a ha
      omega

theorem Listed.length_lt {fl : List ℕ} (hl : Listed h fl) : fl.length < listFuel := by
  have hb := hl.sane.bounds
  have hsub : fl.toFinset ⊆ Finset.range 33554432 := by
    intro a ha
    have := hl.range a (List.mem_toFinset.1 ha)
    rw [Finset.mem_range]
    omega
  have hcard := Finset.card_le_card hsub
  rw [List.toFinset_card_of_nodup hl.nodup, Finset.card_range] at hcard
  unfold listFuel
  omega

/-- The nodes next to a position, in the list of all nodes. -/
theorem split_before (l : List ℕ) : ∃ p, h.head :: l.map (· + 8) = p ++ [nodeBefore h l] := by
  rcases List.eq_nil_or_concat l with rfl | ⟨l', a, rfl⟩
  · exact ⟨[], rfl⟩
  · refine ⟨h.head :: l'.map (· + 8), ?_⟩
    unfold nodeBefore
    rw [List.concat_eq_append, List.getLast?_concat, List.map_append]
    rfl

theorem split_after (l : List ℕ) : ∃ q, l.map (· + 8) ++ [h.head] = nodeOf h l :: q := by
  cases l with
  | nil => exact ⟨[], rfl⟩
  | cons a l => exact ⟨_, rfl⟩

/-- A node of the list: the head, or a chunk's. -/
def IsNode (h : Heap) (fl : List ℕ) (u : ℕ) : Prop := u = h.head ∨ ∃ a ∈ fl, u = a + 8

theorem IsNode.mono {fl fl' : List ℕ} {u : ℕ} (hu : IsNode h fl u) (hsub : fl ⊆ fl') :
    IsNode h fl' u := hu.imp id fun ⟨a, ha, e⟩ => ⟨a, hsub ha, e⟩

theorem isNode_iff_mem {fl : List ℕ} {u : ℕ} :
    IsNode h fl u ↔ u ∈ h.head :: fl.map (· + 8) := by
  unfold IsNode
  rw [List.mem_cons, List.mem_map]
  constructor
  · rintro (h | ⟨a, ha, e⟩)
    · exact Or.inl h
    · exact Or.inr ⟨a, ha, e.symm⟩
  · rintro (h | ⟨a, ha, e⟩)
    · exact Or.inl h
    · exact Or.inr ⟨a, ha, e.symm⟩

theorem isNode_nodeOf (l : List ℕ) : IsNode h l (nodeOf h l) := by
  cases l with
  | nil => exact Or.inl rfl
  | cons a l => exact Or.inr ⟨a, List.mem_cons_self .., rfl⟩

theorem isNode_nodeBefore (l : List ℕ) : IsNode h l (nodeBefore h l) := by
  refine (isNode_nodeOf (h := h) l.getLast?.toList).mono fun a ha => List.mem_of_getLast? ?_
  simpa using ha

theorem nodeBefore_concat (l : List ℕ) (a : ℕ) : nodeBefore h (l ++ [a]) = a + 8 := by
  unfold nodeBefore
  rw [List.getLast?_concat]
  rfl

/-- What the links at a position hold. -/
theorem Listed.links {l₁ l₂ : List ℕ} (hl : Listed h (l₁ ++ l₂)) :
    h.mem.read32 (nodeBefore h l₁) = nodeOf h l₂ ∧
      h.mem.read32 (nodeOf h l₂ + 4) = nodeBefore h l₁ := by
  obtain ⟨p, hp⟩ := split_before (h := h) l₁
  obtain ⟨q, hq⟩ := split_after (h := h) l₂
  have hr := hl.ring
  rw [List.map_append, ring_split hp hq] at hr
  exact hr.2.1

/-- The words of a node are in the heap. -/
theorem Listed.node {fl : List ℕ} (hl : Listed h fl) {u : ℕ} (hu : IsNode h fl u) :
    u % 4 = 0 ∧ u + 8 ≤ 33554432 ∧ InHeap h.head h.endAddr u ∧ InHeap h.head h.endAddr (u + 4) := by
  have hal := hl.sane.head_aligned
  have hlow := hl.sane.head_low
  have hb := hl.sane.bounds
  unfold InHeap heapStart
  rcases hu with rfl | ⟨a, ha, rfl⟩
  · exact ⟨by omega, by omega, by omega, by omega⟩
  · have := hl.range a ha
    exact ⟨by omega, by omega, by omega, by omega⟩

theorem Listed.node_ne {fl : List ℕ} (hl : Listed h fl) {u v : ℕ} (hu : IsNode h fl u)
    (hv : IsNode h fl v) : u ≠ v + 4 := by
  by_cases he : u = v
  · omega
  · have := hl.nodesApart.apart u (isNode_iff_mem.1 hu) v (isNode_iff_mem.1 hv) he
    omega

theorem IsNode.listWord {fl : List ℕ} {u : ℕ} (hu : IsNode h fl u) :
    ListWord h fl u ∧ ListWord h fl (u + 4) := by
  rcases hu with rfl | ⟨a, ha, rfl⟩
  · exact ⟨Or.inl rfl, Or.inr (Or.inl rfl)⟩
  · exact ⟨Or.inr (Or.inr ⟨a, ha, Or.inl rfl⟩), Or.inr (Or.inr ⟨a, ha, Or.inr rfl⟩)⟩

/-- The words of a node may be written where those of every listed chunk may. -/
theorem IsNode.writable {fl : List ℕ} {u : ℕ} (hu : IsNode h fl u)
    (hW : ∀ x ∈ fl, W (x + 8) ∧ W (x + 12)) :
    (W u ∨ u = h.head ∨ u = h.head + 4) ∧ (W (u + 4) ∨ u + 4 = h.head ∨ u + 4 = h.head + 4) := by
  rcases hu with rfl | ⟨a, ha, rfl⟩
  · exact ⟨Or.inr (Or.inl rfl), Or.inr (Or.inr rfl)⟩
  · exact ⟨Or.inl (hW a ha).1, Or.inl (hW a ha).2⟩

/-- Storing into one word and reading another. -/
theorem read_write_ne {a b v : ℕ} (ha : a % 4 = 0) (hb : b % 4 = 0) (hne : b ≠ a)
    (hal : a < 4294967296) (hbl : b < 4294967296) :
    (h.write a v).mem.read32 b = h.mem.read32 b :=
  Mem.read32_write32_of_ne ha hb hne.symm hal hbl

theorem read_write_self {a v : ℕ} (hv : v < 4294967296) : (h.write a v).mem.read32 a = v :=
  Mem.read32_write32_self _ _ hv

theorem SameBut.trans {h₁ h₂ h₃ : Heap} {fl : List ℕ} (h12 : SameBut h₁ h₂ fl)
    (h23 : SameBut h₂ h₃ fl) (hhead : h₂.head = h₁.head) : SameBut h₁ h₃ fl := by
  intro b hb hlt hnot
  have hnot' : ¬ ListWord h₂ fl b := by
    unfold ListWord at hnot ⊢
    rwa [hhead]
  rw [h23 b hb hlt hnot', h12 b hb hlt hnot]

theorem sameBut_write {fl : List ℕ} {a v : ℕ} (ha : a % 4 = 0) (hal : a < 4294967296)
    (hw : ListWord h fl a) : SameBut h (h.write a v) fl := by
  intro b hb hlt hnot
  exact read_write_ne ha hb (fun e => hnot (e ▸ hw)) hal hlt

/-- **`removeChunk`.** -/
theorem wp_removeChunk {l₁ l₂ : List ℕ} {a : ℕ} (hl : Listed h (l₁ ++ a :: l₂))
    (hW : ∀ x ∈ l₁ ++ l₂, W (x + 8) ∧ W (x + 12)) {Q : Unit → Heap → Prop}
    (hQ : ∀ h', Listed h' (l₁ ++ l₂) → h'.endAddr = h.endAddr → h'.head = h.head →
      SameBut h h' (l₁ ++ l₂) → Q () h') :
    Wp (Allowed h.head W U S M) err (removeChunk env a) Q h := by
  have hs := hl.sane
  have hra := hl.range a (by simp)
  have hb := hs.bounds
  have hsub : l₁ ++ l₂ ⊆ l₁ ++ a :: l₂ := by
    intro b hm
    simp only [List.mem_append, List.mem_cons] at hm ⊢
    tauto
  obtain ⟨_, hprev⟩ := hl.links
  have hl' : Listed h ((l₁ ++ [a]) ++ l₂) := by
    rw [List.append_assoc]
    exact hl
  have hnext := hl'.links.1
  rw [nodeBefore_concat] at hnext
  have hp := split_before (h := h) l₁
  have hq := split_after (h := h) l₂
  have hxn := (isNode_nodeBefore (h := h) l₁).mono (List.subset_append_left l₁ l₂)
  have hyn := (isNode_nodeOf (h := h) l₂).mono (List.subset_append_right l₁ l₂)
  generalize nodeBefore h l₁ = x at hprev hp hxn
  generalize nodeOf h l₂ = y at hnext hq hyn
  obtain ⟨hx4, hxlt, hxin, _⟩ := hl.node (hxn.mono hsub)
  obtain ⟨hy4, hylt, _, hyin⟩ := hl.node (hyn.mono hsub)
  unfold removeChunk listDelEntry
  rw [show listOf a = a + 8 from Word32.add_eq (by omega),
    Word32.add_eq (show a + 8 + 4 < 4294967296 by omega)]
  refine .bind (wp_load hs (Or.inl ⟨by unfold heapStart; omega, by omega⟩) ?_)
  rw [show h.mem.read32 (a + 8 + 4) = x from hprev]
  refine .bind (wp_load hs (Or.inl ⟨by unfold heapStart; omega, by omega⟩) ?_)
  rw [hnext, Word32.add_eq (show y + 4 < 4294967296 by omega)]
  refine .bind (wp_store hs hyin (hyn.writable hW).2 ?_)
  refine wp_store (h := h.write (y + 4) x) (hs.write _ _) hxin (hxn.writable hW).1 ?_
  -- the two neighbours now point at each other, and no other link has changed
  have hxy := hl.node_ne (hxn.mono hsub) (hyn.mono hsub)
  have hring : LinkRing ((h.write (y + 4) x).write x y).mem h.head ((l₁ ++ l₂).map (· + 8)) := by
    obtain ⟨p, hp⟩ := hp
    obtain ⟨q, hq⟩ := hq
    have hr := hl.ring
    have hap := hl.nodesApart
    rw [List.map_append, List.map_cons] at hr hap
    rw [List.map_append]
    refine hr.remove (hap.sublist ?_) hp hq ?_ ?_ ?_ ?_
    · exact ((List.sublist_cons_self _ _).append_left _).cons_cons _
    · exact read_write_self (by omega)
    · rw [read_write_ne hx4 (by omega) hxy.symm (by omega) (by omega)]
      exact read_write_self (by omega)
    · intro u hu hne
      rw [← List.map_append, ← isNode_iff_mem] at hu
      obtain ⟨hu4, hult, _, _⟩ := hl.node (hu.mono hsub)
      have huy := hl.node_ne (hu.mono hsub) (hyn.mono hsub)
      rw [read_write_ne hx4 hu4 hne (by omega) (by omega),
        read_write_ne (by omega) hu4 huy (by omega) (by omega)]
    · intro u hu hne
      rw [← List.map_append, ← isNode_iff_mem] at hu
      obtain ⟨hu4, hult, _, _⟩ := hl.node (hu.mono hsub)
      have hux := hl.node_ne (hxn.mono hsub) (hu.mono hsub)
      rw [read_write_ne hx4 (by omega) hux.symm (by omega) (by omega),
        read_write_ne (by omega) (by omega) (by omega) (by omega) (by omega)]
  refine hQ _ ⟨(hs.write _ _).write _ _, hring, ?_, ?_, ?_⟩ rfl rfl ?_
  · exact hl.nodup.sublist ((List.sublist_cons_self _ _).append_left _)
  · exact fun b hb c hc => hl.apart b (hsub hb) c (hsub hc)
  · exact fun b hb => hl.range b (hsub hb)
  · exact (sameBut_write (by omega) (by omega) hyn.listWord.2).trans
      (sameBut_write hx4 (by omega) hxn.listWord.1) rfl

/-- There is room for a chunk at this address next to those of the list. -/
structure Fits (h : Heap) (fl : List ℕ) (a : ℕ) : Prop where
  aligned : a % 8 = 0
  start_le : 16777216 ≤ a
  le_end : a + 16 ≤ h.endAddr
  apart : ∀ b ∈ fl, a + 16 ≤ b ∨ b + 16 ≤ a

theorem Fits.node_apart {fl : List ℕ} {a : ℕ} (hf : Fits h fl a) (hs : h.Sane) {u : ℕ}
    (hu : IsNode h fl u) : u + 8 ≤ a + 8 ∨ a + 16 ≤ u := by
  have hlow := hs.head_low
  have hlo := hf.start_le
  rcases hu with rfl | ⟨b, hb, rfl⟩
  · omega
  · have := hf.apart b hb
    omega

/-- **`list_add_tail`** before a position of the list. -/
theorem wp_listAddTail (l₁ l₂ : List ℕ) {a : ℕ} (hl : Listed h (l₁ ++ l₂))
    (hf : Fits h (l₁ ++ l₂) a) (hW : ∀ x ∈ a :: (l₁ ++ l₂), W (x + 8) ∧ W (x + 12))
    {Q : Unit → Heap → Prop}
    (hQ : ∀ h', Listed h' (l₁ ++ a :: l₂) → h'.endAddr = h.endAddr → h'.head = h.head →
      SameBut h h' (a :: (l₁ ++ l₂)) → Q () h') :
    Wp (Allowed h.head W U S M) err (listAddTail env (a + 8) (nodeOf h l₂)) Q h := by
  have hs := hl.sane
  have hb := hs.bounds
  obtain ⟨ha8, hlo, hhi, hfa⟩ := hf
  obtain ⟨_, hprev⟩ := hl.links
  have hp := split_before (h := h) l₁
  have hq := split_after (h := h) l₂
  have hxn := (isNode_nodeBefore (h := h) l₁).mono (List.subset_append_left l₁ l₂)
  have hyn := (isNode_nodeOf (h := h) l₂).mono (List.subset_append_right l₁ l₂)
  generalize nodeBefore h l₁ = x at hprev hp hxn
  generalize nodeOf h l₂ = y at hprev hq hyn
  obtain ⟨hx4, hxlt, hxin, _⟩ := hl.node hxn
  obtain ⟨hy4, hylt, _, hyin⟩ := hl.node hyn
  have hWfl : ∀ z ∈ l₁ ++ l₂, W (z + 8) ∧ W (z + 12) := fun z hz => hW z (List.mem_cons_of_mem _ hz)
  have hWa := hW a (List.mem_cons_self ..)
  have hapart : ∀ {u}, IsNode h (l₁ ++ l₂) u → u + 8 ≤ a + 8 ∨ a + 16 ≤ u :=
    fun hu => Fits.node_apart ⟨ha8, hlo, hhi, hfa⟩ hs hu
  have hxa := hapart hxn
  have hya := hapart hyn
  have hxy := hl.node_ne hxn hyn
  unfold listAddTail listAdd
  rw [Word32.add_eq (show y + 4 < 4294967296 by omega)]
  refine .bind (wp_load hs hyin ?_)
  rw [hprev, Word32.add_eq (show a + 8 + 4 < 4294967296 by omega)]
  refine .bind (wp_store hs hyin (hyn.writable hWfl).2 ?_)
  refine .bind (wp_store (h := h.write (y + 4) (a + 8)) (hs.write _ _)
    (Or.inl ⟨by unfold heapStart; omega, by dsimp only [write_endAddr]; omega⟩)
    (Or.inl hWa.1) ?_)
  refine .bind (wp_store (h := (h.write (y + 4) (a + 8)).write (a + 8) y)
    ((hs.write _ _).write _ _)
    (Or.inl ⟨by unfold heapStart; omega, by dsimp only [write_endAddr]; omega⟩)
    (Or.inl hWa.2) ?_)
  refine wp_store
    (h := ((h.write (y + 4) (a + 8)).write (a + 8) y).write (a + 8 + 4) x)
    (((hs.write _ _).write _ _).write _ _) hxin (hxn.writable hWfl).1 ?_
  -- other links than the four written ones have not changed
  have hother : ∀ b, b % 4 = 0 → b < 4294967296 → b ≠ y + 4 → b ≠ a + 8 → b ≠ a + 8 + 4 →
      b ≠ x → ((((h.write (y + 4) (a + 8)).write (a + 8) y).write (a + 8 + 4) x).write x
        (a + 8)).mem.read32 b = h.mem.read32 b := by
    intro b hb hlt h1 h2 h3 h4
    rw [read_write_ne hx4 hb h4 (by omega) hlt, read_write_ne (by omega) hb h3 (by omega) hlt,
      read_write_ne (by omega) hb h2 (by omega) hlt, read_write_ne (by omega) hb h1 (by omega) hlt]
  have hring : LinkRing ((((h.write (y + 4) (a + 8)).write (a + 8) y).write (a + 8 + 4) x).write x
      (a + 8)).mem h.head ((l₁ ++ a :: l₂).map (· + 8)) := by
    obtain ⟨p, hp⟩ := hp
    obtain ⟨q, hq⟩ := hq
    have hr := hl.ring
    have hap := hl.nodesApart
    rw [List.map_append] at hr hap
    rw [List.map_append, List.map_cons]
    refine hr.insert ⟨?_, ?_, ?_⟩ hp hq ?_ ?_ ?_ ?_ ?_ ?_
    · refine List.nodup_cons.2 ⟨fun hm => ?_, hap.nodup⟩
      rw [← List.map_append, ← isNode_iff_mem] at hm
      have := hapart hm
      omega
    · intro u hu v hv huv
      rcases List.mem_cons.1 hu with rfl | hu <;> rcases List.mem_cons.1 hv with rfl | hv
      · exact absurd rfl huv
      · rw [← List.map_append, ← isNode_iff_mem] at hv
        have := hapart hv
        omega
      · rw [← List.map_append, ← isNode_iff_mem] at hu
        have := hapart hu
        omega
      · exact hap.apart u hu v hv huv
    · intro u hu
      rcases List.mem_cons.1 hu with rfl | hu
      · omega
      · exact hap.lt u hu
    · exact read_write_self (by omega)
    · rw [read_write_ne hx4 (by omega) hxy.symm (by omega) (by omega),
        read_write_ne (by omega) (by omega) (by omega) (by omega) (by omega),
        read_write_ne (by omega) (by omega) (by omega) (by omega) (by omega)]
      exact read_write_self (by omega)
    · rw [read_write_ne hx4 (by omega) (by omega) (by omega) (by omega),
        read_write_ne (by omega) (by omega) (by omega) (by omega) (by omega)]
      exact read_write_self (by omega)
    · rw [read_write_ne hx4 (by omega) (by omega) (by omega) (by omega)]
      exact read_write_self (by omega)
    · intro u hu hne
      rw [← List.map_append, ← isNode_iff_mem] at hu
      obtain ⟨hu4, hult, _, _⟩ := hl.node hu
      have := hapart hu
      exact hother u hu4 (by omega) (hl.node_ne hu hyn) (by omega) (by omega) hne
    · intro u hu hne
      rw [← List.map_append, ← isNode_iff_mem] at hu
      obtain ⟨hu4, hult, _, _⟩ := hl.node hu
      have := hapart hu
      exact hother (u + 4) (by omega) (by omega) (by omega) (by omega) (by omega)
        (hl.node_ne hxn hu).symm
  have hsub : l₁ ++ l₂ ⊆ a :: (l₁ ++ l₂) := List.subset_cons_self _ _
  have hmem : ∀ b, b ∈ l₁ ++ a :: l₂ ↔ b = a ∨ b ∈ l₁ ++ l₂ := by
    intro b
    simp only [List.mem_append, List.mem_cons]
    tauto
  refine hQ _ ⟨(((hs.write _ _).write _ _).write _ _).write _ _, hring, ?_, ?_, ?_⟩ rfl rfl ?_
  · refine List.perm_middle.nodup_iff.2 (List.nodup_cons.2 ⟨fun hm => ?_, hl.nodup⟩)
    have := hfa a hm
    omega
  · intro b hb c hc hbc
    rcases (hmem b).1 hb with e | hb' <;> rcases (hmem c).1 hc with e' | hc'
    · exact absurd (e.trans e'.symm) hbc
    · rw [e]; exact hfa c hc'
    · rw [e']; exact (hfa b hb').symm
    · exact hl.apart b hb' c hc' hbc
  · intro b hb
    rcases (hmem b).1 hb with rfl | hb
    · exact ⟨ha8, hlo, hhi⟩
    · exact hl.range b hb
  · intro b hb hlt hnot
    have hy' : ListWord h (a :: (l₁ ++ l₂)) (y + 4) := (hyn.mono hsub).listWord.2
    have hx' : ListWord h (a :: (l₁ ++ l₂)) x := (hxn.mono hsub).listWord.1
    have ha' : IsNode h (a :: (l₁ ++ l₂)) (a + 8) := Or.inr ⟨a, List.mem_cons_self .., rfl⟩
    exact hother b hb hlt (fun e => hnot (e ▸ hy')) (fun e => hnot (e ▸ ha'.listWord.1))
      (fun e => hnot (e ▸ ha'.listWord.2)) (fun e => hnot (e ▸ hx'))

/-! ## Searching -/

/-- The size in a chunk's header. -/
def hsize (m : Mem) (a : ℕ) : ℕ := m.read32 (a + 4) / 8 * 8

theorem and_compl_seven {w : ℕ} (hw : w < 4294967296) : w &&& Word32.compl 7 = w / 8 * 8 :=
  Word32.and_compl_two_pow (k := 3) hw (by norm_num)

theorem wp_chunksize (hs : h.Sane) {a : ℕ} {Q : ℕ → Heap → Prop} (hlo : 16777216 ≤ a)
    (hhi : a + 8 ≤ h.endAddr) (hQ : Q (hsize h.mem a) h) :
    Wp (Allowed h.head W U S M) err (chunksize env a) Q h := by
  have hb := hs.bounds
  unfold chunksize
  rw [show headOf a = a + 4 from Word32.add_eq (by omega)]
  refine .bind (wp_load hs (Or.inl ⟨by unfold heapStart; omega, by omega⟩) (.pure ?_))
  rw [and_compl_seven (Mem.read32_lt _ _)]
  exact hQ

/-- The first chunk of the list with at least the given size, and those behind it. -/
def fitFrom (m : Mem) (size : ℕ) (fl : List ℕ) : List ℕ :=
  fl.dropWhile fun a => decide (hsize m a < size)

/-- The search loop stops at the first chunk that fits. -/
theorem wp_firstFit {size : ℕ} {Q : ℕ → Heap → Prop} :
    ∀ {l₂ : List ℕ} (l₁ : List ℕ) {fuel : ℕ}, Listed h (l₁ ++ l₂) → l₂.length < fuel →
      Q (nodeOf h (fitFrom h.mem size l₂)) h →
      Wp (Allowed h.head W U S M) err (firstFit env size fuel (nodeOf h l₂)) Q h := by
  intro l₂
  induction l₂ with
  | nil =>
    intro l₁ fuel hl hfuel hQ
    obtain ⟨fuel, rfl⟩ : ∃ n, fuel = n + 1 := ⟨fuel - 1, by simp at hfuel; omega⟩
    unfold firstFit
    refine .bind (.get ?_)
    rw [if_pos nodeOf_nil]
    exact .pure hQ
  | cons a l₂ ih =>
    intro l₁ fuel hl hfuel hQ
    obtain ⟨fuel, rfl⟩ : ∃ n, fuel = n + 1 := ⟨fuel - 1, by simp at hfuel; omega⟩
    have hs := hl.sane
    have hra := hl.range a (by simp)
    have hlow := hs.head_low
    have hb := hs.bounds
    have hl' : Listed h ((l₁ ++ [a]) ++ l₂) := by
      rw [List.append_assoc]
      exact hl
    have hnext := hl'.links.1
    rw [nodeBefore_concat] at hnext
    unfold firstFit
    refine .bind (.get ?_)
    rw [nodeOf_cons, if_neg (by omega), show listEntry (a + 8) = a from
      (Word32.sub_eq (show a + 8 < 4294967296 by omega) (by omega)).trans (by omega)]
    refine .bind (wp_chunksize hs (by omega) (by omega) ?_)
    by_cases hfit : size ≤ hsize h.mem a
    · rw [if_pos hfit]
      refine .pure ?_
      rwa [fitFrom, List.dropWhile_cons_of_neg (by simpa using hfit)] at hQ
    · rw [if_neg hfit]
      refine .bind (wp_load hs (Or.inl ⟨by unfold heapStart; omega, by omega⟩) ?_)
      rw [hnext]
      refine ih _ hl' (by simp at hfuel; omega) ?_
      rwa [fitFrom, List.dropWhile_cons_of_pos (by simpa using hfit)] at hQ

theorem wp_loadHead {fl : List ℕ} (hl : Listed h fl) {Q : ℕ → Heap → Prop}
    (hQ : Q (nodeOf h fl) h) : Wp (Allowed h.head W U S M) err (load env h.head) Q h := by
  refine wp_load hl.sane (Or.inr (Or.inl rfl)) ?_
  have := (show Listed h ([] ++ fl) from hl).links.1
  rw [show nodeBefore h [] = h.head from rfl] at this
  rwa [this]

/-- **`findSmallestChunk`** returns the first chunk of the list that fits. -/
theorem wp_findSmallestChunk {fl : List ℕ} (hl : Listed h fl) {size : ℕ} {Q : ℕ → Heap → Prop}
    (hQ : Q ((fitFrom h.mem size fl).headD 0) h) :
    Wp (Allowed h.head W U S M) err (findSmallestChunk env size) Q h := by
  have hb := hl.sane.bounds
  have hlow := hl.sane.head_low
  unfold findSmallestChunk
  refine .bind (.get (.bind (wp_loadHead hl (.bind ?_))))
  refine wp_firstFit [] hl hl.length_lt ?_
  cases hfit : fitFrom h.mem size fl with
  | nil =>
    rw [hfit] at hQ
    rw [if_pos nodeOf_nil]
    exact .pure hQ
  | cons a l =>
    rw [hfit] at hQ
    have hra := hl.range a ((List.dropWhile_suffix _).subset (by
      rw [show fl.dropWhile _ = a :: l from hfit]; exact List.mem_cons_self ..))
    rw [nodeOf_cons, if_neg (by omega), show listEntry (a + 8) = a from
      (Word32.sub_eq (show a + 8 < 4294967296 by omega) (by omega)).trans (by omega)]
    exact .pure hQ

theorem wp_listEmpty {fl : List ℕ} (hl : Listed h fl) {Q : Bool → Heap → Prop}
    (hQ : Q fl.isEmpty h) : Wp (Allowed h.head W U S M) err (listEmpty env) Q h := by
  have hlow := hl.sane.head_low
  unfold listEmpty
  refine .bind (.get (.bind (wp_loadHead hl ?_)))
  cases fl with
  | nil =>
    rw [if_pos nodeOf_nil]
    exact .pure hQ
  | cons a l =>
    have hra := hl.range a (List.mem_cons_self ..)
    rw [if_neg (by rw [nodeOf_cons]; omega)]
    refine .bind (wp_loadHead hl (.pure ?_))
    rw [show (nodeOf h (a :: l) == 0) = false from beq_false_of_ne (by show a + 8 ≠ 0; omega)]
    exact hQ

/-- Where `insertChunk` puts a chunk. -/
def insertBySize (m : Mem) (a : ℕ) (fl : List ℕ) : List ℕ :=
  (fl.takeWhile fun b => decide (hsize m b < hsize m a)) ++ a :: fitFrom m (hsize m a) fl

theorem insertBySize_perm (m : Mem) (a : ℕ) (fl : List ℕ) :
    (insertBySize m a fl).Perm (a :: fl) := by
  refine List.perm_middle.trans (List.Perm.cons a ?_)
  rw [fitFrom, List.takeWhile_append_dropWhile]

/-- The chunks of the list are in the order of their sizes. -/
def BySize (m : Mem) (fl : List ℕ) : Prop := fl.Pairwise fun a b => hsize m a ≤ hsize m b

theorem BySize.congr {m m' : Mem} {fl : List ℕ} (hb : BySize m fl)
    (hsame : ∀ a ∈ fl, hsize m' a = hsize m a) : BySize m' fl := by
  refine List.Pairwise.imp_of_mem (fun {a b} ha hb' hab => ?_) hb
  rw [hsame a ha, hsame b hb']
  exact hab

theorem insertBySize_eq (m : Mem) (a : ℕ) (fl : List ℕ) :
    insertBySize m a fl = fl.orderedInsert (fun a b => hsize m a ≤ hsize m b) a := by
  rw [List.orderedInsert_eq_take_drop]
  simp only [not_le]
  rfl

/-- Inserting keeps the order. -/
theorem BySize.insert {m : Mem} {fl : List ℕ} (hb : BySize m fl) (a : ℕ) :
    BySize m (insertBySize m a fl) := by
  have : Std.Total fun a b => hsize m a ≤ hsize m b := ⟨fun _ _ => le_total _ _⟩
  have : IsTrans ℕ fun a b => hsize m a ≤ hsize m b := ⟨fun _ _ _ => le_trans⟩
  rw [insertBySize_eq]
  exact List.Pairwise.orderedInsert a fl hb

/-- **`insertChunk`.** -/
theorem wp_insertChunk {fl : List ℕ} {a : ℕ} (hl : Listed h fl) (hf : Fits h fl a)
    (hW : ∀ x ∈ a :: fl, W (x + 8) ∧ W (x + 12)) {Q : Unit → Heap → Prop}
    (hQ : ∀ h', Listed h' (insertBySize h.mem a fl) → h'.endAddr = h.endAddr → h'.head = h.head →
      SameBut h h' (a :: fl) → Q () h') :
    Wp (Allowed h.head W U S M) err (insertChunk env a) Q h := by
  have hb := hl.sane.bounds
  have hlo := hf.start_le
  have hhi := hf.le_end
  have hlist : listOf a = a + 8 := Word32.add_eq (by omega)
  unfold insertChunk
  refine .bind (.get (.bind (wp_listEmpty hl ?_)))
  rw [hlist]
  cases fl with
  | nil =>
    rw [if_pos List.isEmpty_nil]
    exact wp_listAddTail [] [] hl hf hW hQ
  | cons b l =>
    rw [if_neg (by simp)]
    refine .bind (wp_chunksize hl.sane hlo (by omega) ?_)
    refine .bind (wp_loadHead hl (.bind ?_))
    refine wp_firstFit [] hl hl.length_lt ?_
    have hsplit : ((b :: l).takeWhile fun x => decide (hsize h.mem x < hsize h.mem a)) ++
        fitFrom h.mem (hsize h.mem a) (b :: l) = b :: l := List.takeWhile_append_dropWhile
    refine wp_listAddTail _ _ (by rw [hsplit]; exact hl) (by rw [hsplit]; exact hf)
      (by rw [hsplit]; exact hW) ?_
    rw [hsplit]
    exact hQ

end

end Heap

end Ospp
