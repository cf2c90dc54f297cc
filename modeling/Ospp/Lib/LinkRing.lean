import Mathlib.Data.List.Chain
import Ospp.Lib.Mem

/-!
# Circular doubly linked lists in memory

A node at address `x` has its successor's address in the word at `x` and its predecessor's in the
word at `x + 4`. `LinkRing m hd l` is the circular list through the anchor `hd` with the nodes `l`
in order. The two ways such a list changes are `LinkRing.insert` and `LinkRing.remove`;
`LinkRing.congr` carries a ring over to a memory that agrees on its words.

An edit happens between two neighbours `x` and `y`; they are named by splitting the list of all
nodes, which begins and ends with the anchor, at the place of the edit.
-/

/-- `y` follows `x`. -/
def Linked (m : Mem) (x y : ℕ) : Prop := m.read32 x = y ∧ m.read32 (y + 4) = x

def LinkRing (m : Mem) (hd : ℕ) (l : List ℕ) : Prop := (hd :: (l ++ [hd])).IsChain (Linked m)

instance (m : Mem) (x y : ℕ) : Decidable (Linked m x y) := inferInstanceAs (Decidable (_ ∧ _))

instance (m : Mem) (hd : ℕ) (l : List ℕ) : Decidable (LinkRing m hd l) :=
  inferInstanceAs (Decidable ((hd :: (l ++ [hd])).IsChain (Linked m)))

/-- The two words of each node are apart from those of every other, and do not wrap. -/
structure NodesApart (l : List ℕ) : Prop where
  nodup : l.Nodup
  apart : ∀ u ∈ l, ∀ v ∈ l, u ≠ v → u + 8 ≤ v ∨ v + 8 ≤ u
  lt : ∀ u ∈ l, u + 8 ≤ 4294967296

/-- A chain depends on the relation between its members only: the ones that have a successor, and
the ones that have a predecessor. -/
theorem isChain_of_mem {α : Type} {R S : α → α → Prop} :
    ∀ {l : List α}, l.IsChain R → (∀ u ∈ l.dropLast, ∀ v ∈ l.tail, R u v → S u v) → l.IsChain S
  | [], _, _ => .nil
  | [a], _, _ => .singleton a
  | a :: b :: l, h, hRS => by
    rw [List.isChain_cons_cons] at h ⊢
    refine ⟨hRS a ?_ b ?_ h.1, isChain_of_mem h.2 fun u hu v hv => hRS u ?_ v ?_⟩
    · rw [List.dropLast_cons_cons]; exact List.mem_cons_self ..
    · exact List.mem_cons_self ..
    · rw [List.dropLast_cons_cons]; exact List.mem_cons_of_mem _ hu
    · exact List.mem_cons_of_mem _ hv

section

variable {m m' : Mem} {hd n x y : ℕ} {l₁ l₂ l p q : List ℕ}

theorem NodesApart.sublist (h : NodesApart l) (hs : l₁.Sublist l) : NodesApart l₁ :=
  ⟨h.nodup.sublist hs, fun u hu v hv => h.apart u (hs.subset hu) v (hs.subset hv),
    fun u hu => h.lt u (hs.subset hu)⟩

theorem LinkRing.congr (h : LinkRing m hd l) (hx : ∀ u ∈ hd :: l, m'.read32 u = m.read32 u)
    (hy : ∀ u ∈ hd :: l, m'.read32 (u + 4) = m.read32 (u + 4)) : LinkRing m' hd l := by
  refine isChain_of_mem h fun u hu v hv huv => ?_
  have hdrop : (hd :: (l ++ [hd])).dropLast = hd :: l := by
    rw [← List.cons_append, List.dropLast_concat]
  rw [hdrop] at hu
  have hv' : v ∈ hd :: l := by
    rcases List.mem_append.1 hv with h | h
    · exact List.mem_cons_of_mem _ h
    · rw [List.mem_singleton.1 h]; exact List.mem_cons_self ..
  exact ⟨(hx u hu).trans huv.1, (hy v hv').trans huv.2⟩

/-- Two chains through the same nodes have the same links. -/
theorem isChain_linked_eq : ∀ {l : List ℕ}, l.IsChain (Linked m) → l.IsChain (Linked m') →
    (∀ u ∈ l.dropLast, m'.read32 u = m.read32 u) ∧
      ∀ v ∈ l.tail, m'.read32 (v + 4) = m.read32 (v + 4)
  | [], _, _ => ⟨fun u hu => (by cases hu), fun v hv => (by cases hv)⟩
  | [a], _, _ => ⟨fun u hu => (by cases hu), fun v hv => (by cases hv)⟩
  | a :: b :: l, h, h' => by
    rw [List.isChain_cons_cons] at h h'
    obtain ⟨ih₁, ih₂⟩ := isChain_linked_eq h.2 h'.2
    rw [List.dropLast_cons_cons]
    refine ⟨fun u hu => ?_, fun v hv => ?_⟩
    · rcases List.mem_cons.1 hu with rfl | hu
      · exact h'.1.1.trans h.1.1.symm
      · exact ih₁ u hu
    · rcases List.mem_cons.1 hv with rfl | hv
      · exact h'.1.2.trans h.1.2.symm
      · exact ih₂ v hv

/-- The list determines the links. -/
theorem LinkRing.words_eq (h : LinkRing m hd l) (h' : LinkRing m' hd l) {u : ℕ}
    (hu : u ∈ hd :: l) : m'.read32 u = m.read32 u ∧ m'.read32 (u + 4) = m.read32 (u + 4) := by
  obtain ⟨h₁, h₂⟩ := isChain_linked_eq h h'
  constructor
  · refine h₁ u ?_
    rw [← List.cons_append, List.dropLast_concat]
    exact hu
  · refine h₂ u ?_
    rcases List.mem_cons.1 hu with rfl | hu
    · exact List.mem_append_right l (List.mem_singleton_self u)
    · exact List.mem_append_left _ hu

/-- The list of all nodes, split between two neighbours. -/
theorem ring_split (hp : hd :: l₁ = p ++ [x]) (hq : l₂ ++ [hd] = y :: q) :
    LinkRing m hd (l₁ ++ l₂) ↔
      (p ++ [x]).IsChain (Linked m) ∧ Linked m x y ∧ (y :: q).IsChain (Linked m) := by
  unfold LinkRing
  rw [List.append_assoc, ← List.cons_append, hp, hq, List.append_assoc, List.singleton_append,
    List.isChain_append_cons_cons]

theorem ring_split_cons (hp : hd :: l₁ = p ++ [x]) (hq : l₂ ++ [hd] = y :: q) :
    LinkRing m hd (l₁ ++ n :: l₂) ↔ (p ++ [x]).IsChain (Linked m) ∧ Linked m x n ∧ Linked m n y ∧
      (y :: q).IsChain (Linked m) := by
  have hn : (n :: l₂) ++ [hd] = n :: y :: q := by rw [List.cons_append, hq]
  rw [ring_split hp hn, List.isChain_cons_cons]

/-- The nodes before `x` are apart from `x`, and those after `y` from `y`. -/
theorem ne_of_split (hap : NodesApart (hd :: (l₁ ++ l₂))) (hp : hd :: l₁ = p ++ [x])
    (hq : l₂ ++ [hd] = y :: q) : (∀ u ∈ p, u ≠ x) ∧ (∀ v ∈ (p ++ [x]).tail, v ≠ y) ∧
      (∀ u ∈ (y :: q).dropLast, u ≠ x) ∧ (∀ v ∈ q, v ≠ y) := by
  have hn := hap.nodup
  have htail : (p ++ [x]).tail = l₁ := by rw [← hp]; rfl
  have hdrop : (y :: q).dropLast = l₂ := by rw [← hq, List.dropLast_concat]
  have hfront : (p ++ [x] ++ l₂).Nodup := by rw [← hp]; exact hn
  have hback : (l₁ ++ (y :: q)).Nodup := by
    rw [← hq, ← List.append_assoc]
    exact (List.perm_append_singleton hd (l₁ ++ l₂)).nodup_iff.2 hn
  rw [List.append_assoc, List.nodup_append] at hfront
  rw [List.nodup_append] at hback
  rw [htail, hdrop]
  refine ⟨fun u hu he => ?_, fun v hv he => ?_, fun u hu he => ?_, fun v hv he => ?_⟩
  · exact hfront.2.2 u hu x (by simp) he
  · exact hback.2.2 v hv y (by simp) he
  · have := (List.nodup_append.1 hfront.2.1).2.2 x (by simp) u hu
    exact this he.symm
  · have := (List.nodup_cons.1 hback.2.1).1
    exact this (he ▸ hv)

/-- Where only the links at the split change, both sides stay chained. -/
theorem chains_of_split (hap : NodesApart (hd :: (l₁ ++ l₂))) (hp : hd :: l₁ = p ++ [x])
    (hq : l₂ ++ [hd] = y :: q)
    (hx : ∀ u ∈ hd :: (l₁ ++ l₂), u ≠ x → m'.read32 u = m.read32 u)
    (hy : ∀ u ∈ hd :: (l₁ ++ l₂), u ≠ y → m'.read32 (u + 4) = m.read32 (u + 4))
    (hfront : (p ++ [x]).IsChain (Linked m)) (hback : (y :: q).IsChain (Linked m)) :
    (p ++ [x]).IsChain (Linked m') ∧ (y :: q).IsChain (Linked m') := by
  obtain ⟨hpx, hpy, hqx, hqy⟩ := ne_of_split hap hp hq
  have hmemp : ∀ u ∈ p ++ [x], u ∈ hd :: (l₁ ++ l₂) := fun u hu => by
    rw [← hp] at hu
    rcases List.mem_cons.1 hu with rfl | hu
    · exact List.mem_cons_self ..
    · exact List.mem_cons_of_mem _ (List.mem_append_left _ hu)
  have hmemq : ∀ u ∈ y :: q, u ∈ hd :: (l₁ ++ l₂) := fun u hu => by
    rw [← hq] at hu
    rcases List.mem_append.1 hu with hu | hu
    · exact List.mem_cons_of_mem _ (List.mem_append_right _ hu)
    · rw [List.mem_singleton.1 hu]; exact List.mem_cons_self ..
  refine ⟨isChain_of_mem hfront fun u hu v hv huv => ?_,
    isChain_of_mem hback fun u hu v hv huv => ?_⟩
  · rw [List.dropLast_concat] at hu
    exact ⟨(hx u (hmemp u (List.mem_append_left _ hu)) (hpx u hu)).trans huv.1,
      (hy v (hmemp v (List.mem_of_mem_tail hv)) (hpy v hv)).trans huv.2⟩
  · exact ⟨(hx u (hmemq u (List.mem_of_mem_dropLast hu)) (hqx u hu)).trans huv.1,
      (hy v (hmemq v (List.mem_cons_of_mem _ hv)) (hqy v hv)).trans huv.2⟩

/-- **Insertion** between two neighbours. -/
theorem LinkRing.insert (h : LinkRing m hd (l₁ ++ l₂)) (hap : NodesApart (n :: hd :: (l₁ ++ l₂)))
    (hp : hd :: l₁ = p ++ [x]) (hq : l₂ ++ [hd] = y :: q)
    (hnext : m'.read32 x = n) (hprev : m'.read32 (y + 4) = n) (hn : m'.read32 n = y)
    (hn4 : m'.read32 (n + 4) = x)
    (hx : ∀ u ∈ hd :: (l₁ ++ l₂), u ≠ x → m'.read32 u = m.read32 u)
    (hy : ∀ u ∈ hd :: (l₁ ++ l₂), u ≠ y → m'.read32 (u + 4) = m.read32 (u + 4)) :
    LinkRing m' hd (l₁ ++ n :: l₂) := by
  rw [ring_split hp hq] at h
  obtain ⟨h1, _, h3⟩ := h
  have hap' : NodesApart (hd :: (l₁ ++ l₂)) := hap.sublist (List.sublist_cons_self _ _)
  obtain ⟨hfront, hback⟩ := chains_of_split hap' hp hq hx hy h1 h3
  rw [ring_split_cons hp hq]
  exact ⟨hfront, ⟨hnext, hn4⟩, ⟨hn, hprev⟩, hback⟩

/-- **Removal** of a node between two neighbours. -/
theorem LinkRing.remove (h : LinkRing m hd (l₁ ++ n :: l₂)) (hap : NodesApart (hd :: (l₁ ++ l₂)))
    (hp : hd :: l₁ = p ++ [x]) (hq : l₂ ++ [hd] = y :: q)
    (hnext : m'.read32 x = y) (hprev : m'.read32 (y + 4) = x)
    (hx : ∀ u ∈ hd :: (l₁ ++ l₂), u ≠ x → m'.read32 u = m.read32 u)
    (hy : ∀ u ∈ hd :: (l₁ ++ l₂), u ≠ y → m'.read32 (u + 4) = m.read32 (u + 4)) :
    LinkRing m' hd (l₁ ++ l₂) := by
  rw [ring_split_cons hp hq] at h
  obtain ⟨h1, _, _, h4⟩ := h
  obtain ⟨hfront, hback⟩ := chains_of_split hap hp hq hx hy h1 h4
  rw [ring_split hp hq]
  exact ⟨hfront, ⟨hnext, hprev⟩, hback⟩

end
