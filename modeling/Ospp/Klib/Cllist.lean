import Ospp.Lib.LinkRing
import Ospp.Lib.Trans

/-!
# `cllist.hpp`

Circular doubly linked lists through a `list_head` in each element. The functions are given nodes
only: they find the neighbours in memory and rewrite up to six links. `Lists N m L` says what the
memory means, for any number of lists at once: `L h` is the list with the head `h`, and each node of
`N` is in one list, heads one, or is loose. Every function has an effect on `L` alone
(`Op.apply`), and the loops over a list follow it.
-/

namespace Ospp

open Trans

namespace Cllist

/-- `u->next`. -/
def next (m : Mem) (u : ℕ) : ℕ := m.read32 u

/-- `u->prev`. -/
def prev (m : Mem) (u : ℕ) : ℕ := m.read32 (u + 4)

def setNext (m : Mem) (u v : ℕ) : Mem := m.write32 u v

def setPrev (m : Mem) (u v : ℕ) : Mem := m.write32 (u + 4) v

/-- `INIT_LIST_HEAD`. -/
def initListHead (m : Mem) (p : ℕ) : Mem := setPrev (setNext m p p) p p

/-- `__list_add`. -/
def listAddBetween (m : Mem) (new prev next : ℕ) : Mem :=
  setNext (setPrev (setNext (setPrev m next new) new next) new prev) prev new

def listAdd (m : Mem) (new head : ℕ) : Mem := listAddBetween m new head (next m head)

def listAddTail (m : Mem) (new head : ℕ) : Mem := listAddBetween m new (prev m head) head

/-- `__list_del`. -/
def listDelBetween (m : Mem) (prev next : ℕ) : Mem := setNext (setPrev m next prev) prev next

/-- `__list_del_entry`. -/
def listDelEntry (m : Mem) (entry : ℕ) : Mem := listDelBetween m (prev m entry) (next m entry)

def listDel (m : Mem) (entry : ℕ) : Mem := setPrev (setNext (listDelEntry m entry) entry 0) entry 0

def listDelInit (m : Mem) (entry : ℕ) : Mem := initListHead (listDelEntry m entry) entry

def listMove (m : Mem) (list head : ℕ) : Mem := listAdd (listDelEntry m list) list head

def listMoveTail (m : Mem) (list head : ℕ) : Mem := listAddTail (listDelEntry m list) list head

def listEmpty (m : Mem) (head : ℕ) : Bool := next m head == head || next m head == 0

/-- The loop of `list_size`. -/
def sizeFrom (m : Mem) (head : ℕ) : ℕ → ℕ → ℕ → Option ℕ
  | 0, _, _ => none
  | fuel + 1, p, size => if p = head then some size else sizeFrom m head fuel (next m p) (size + 1)

def listSize (fuel : ℕ) (m : Mem) (head : ℕ) : Option ℕ := sizeFrom m head fuel (next m head) 0

/-! ## Loops -/

section

variable {σ : Type} (mem : σ → Mem) (body : σ → ℕ → σ)

/-- The loop of `list_for_each`, and with `prev` for `next` of `list_for_each_prev`. -/
def forEachFrom (link : Mem → ℕ → ℕ) (head : ℕ) : ℕ → σ → ℕ → Option σ
  | 0, _, _ => none
  | fuel + 1, s, pos =>
    if pos = head then some s
    else
      let s := body s pos
      forEachFrom link head fuel s (link (mem s) pos)

def listForEach (fuel head : ℕ) (s : σ) : Option σ :=
  forEachFrom mem body next head fuel s (next (mem s) head)

def listForEachPrev (fuel head : ℕ) (s : σ) : Option σ :=
  forEachFrom mem body prev head fuel s (prev (mem s) head)

/-- The loop of `list_for_each_safe`: `n` is read before the body runs. -/
def forEachSafeFrom (head : ℕ) : ℕ → σ → ℕ → ℕ → Option σ
  | 0, _, _, _ => none
  | fuel + 1, s, pos, n =>
    if pos = head then some s
    else
      let s := body s pos
      forEachSafeFrom head fuel s n (next (mem s) n)

def listForEachSafe (fuel head : ℕ) (s : σ) : Option σ :=
  let pos := next (mem s) head
  forEachSafeFrom mem body head fuel s pos (next (mem s) pos)

end

/-! ## Links -/

section

variable {N : List ℕ} {m : Mem} {u v w : ℕ}

theorem next_setNext_self (hw : w < 4294967296) : next (setNext m u w) u = w :=
  Mem.read32_write32_self m u hw

theorem prev_setPrev_self (hw : w < 4294967296) : prev (setPrev m u w) u = w :=
  Mem.read32_write32_self m (u + 4) hw

theorem next_setNext_ne (hN : NodesApart N) (hu : u ∈ N) (hv : v ∈ N) (h : u ≠ v) :
    next (setNext m v w) u = next m u := by
  have := hN.apart u hu v hv h
  have := hN.lt u hu
  have := hN.lt v hv
  exact Mem.read32_write32_of_disjoint (by omega) (by omega) (by omega)

theorem prev_setPrev_ne (hN : NodesApart N) (hu : u ∈ N) (hv : v ∈ N) (h : u ≠ v) :
    prev (setPrev m v w) u = prev m u := by
  have := hN.apart u hu v hv h
  have := hN.lt u hu
  have := hN.lt v hv
  exact Mem.read32_write32_of_disjoint (by omega) (by omega) (by omega)

theorem next_setPrev (hN : NodesApart N) (hu : u ∈ N) (hv : v ∈ N) :
    next (setPrev m v w) u = next m u := by
  have hap := hN.apart u hu v hv
  have := hN.lt u hu
  have := hN.lt v hv
  refine Mem.read32_write32_of_disjoint ?_ (by omega) (by omega)
  by_cases h : u = v
  · omega
  · have := hap h
    omega

theorem prev_setNext (hN : NodesApart N) (hu : u ∈ N) (hv : v ∈ N) :
    prev (setNext m v w) u = prev m u := by
  have hap := hN.apart u hu v hv
  have := hN.lt u hu
  have := hN.lt v hv
  refine Mem.read32_write32_of_disjoint ?_ (by omega) (by omega)
  by_cases h : u = v
  · omega
  · have := hap h
    omega

/-- The word is not one of the nodes'. -/
def Outside (N : List ℕ) (a : ℕ) : Prop := a + 4 ≤ 4294967296 ∧ ∀ u ∈ N, a + 4 ≤ u ∨ u + 8 ≤ a

theorem read32_setNext (hN : NodesApart N) (hv : v ∈ N) {a : ℕ} (ha : Outside N a) :
    (setNext m v w).read32 a = m.read32 a := by
  have := hN.lt v hv
  have := ha.2 v hv
  exact Mem.read32_write32_of_disjoint (by omega) (by omega) ha.1

theorem read32_setPrev (hN : NodesApart N) (hv : v ∈ N) {a : ℕ} (ha : Outside N a) :
    (setPrev m v w).read32 a = m.read32 a := by
  have := hN.lt v hv
  have := ha.2 v hv
  exact Mem.read32_write32_of_disjoint (by omega) (by omega) ha.1

/-- Only links of these nodes change. -/
def Touches (N : List ℕ) (m m' : Mem) : Prop := ∀ a, Outside N a → m'.read32 a = m.read32 a

theorem Touches.trans {m' m'' : Mem} (h : Touches N m m') (h' : Touches N m' m'') :
    Touches N m m'' := fun a ha => (h' a ha).trans (h a ha)

theorem touches_setNext (hN : NodesApart N) (hv : v ∈ N) : Touches N m (setNext m v w) :=
  fun _ ha => read32_setNext hN hv ha

theorem touches_setPrev (hN : NodesApart N) (hv : v ∈ N) : Touches N m (setPrev m v w) :=
  fun _ ha => read32_setPrev hN hv ha

theorem touches_initListHead (hN : NodesApart N) (hu : u ∈ N) : Touches N m (initListHead m u) :=
  (touches_setNext hN hu).trans (touches_setPrev hN hu)

theorem touches_listAddBetween {n x y : ℕ} (hN : NodesApart N) (hn : n ∈ N) (hx : x ∈ N)
    (hy : y ∈ N) : Touches N m (listAddBetween m n x y) :=
  (((touches_setPrev hN hy).trans (touches_setNext hN hn)).trans (touches_setPrev hN hn)).trans
    (touches_setNext hN hx)

theorem touches_listDelBetween {x y : ℕ} (hN : NodesApart N) (hx : x ∈ N) (hy : y ∈ N) :
    Touches N m (listDelBetween m x y) :=
  (touches_setPrev hN hy).trans (touches_setNext hN hx)

/-- The links after `__list_add`. -/
theorem listAddBetween_spec {n x y : ℕ} (hN : NodesApart N) (hn : n ∈ N) (hx : x ∈ N) (hy : y ∈ N)
    (hnx : n ≠ x) (hny : n ≠ y) :
    next (listAddBetween m n x y) x = n ∧ prev (listAddBetween m n x y) y = n ∧
      next (listAddBetween m n x y) n = y ∧ prev (listAddBetween m n x y) n = x ∧
      (∀ u ∈ N, u ≠ n → u ≠ x → next (listAddBetween m n x y) u = next m u) ∧
      ∀ u ∈ N, u ≠ n → u ≠ y → prev (listAddBetween m n x y) u = prev m u := by
  have hlt : ∀ u ∈ N, u < 4294967296 := fun u hu => by have := hN.lt u hu; omega
  unfold listAddBetween
  refine ⟨next_setNext_self (hlt n hn), ?_, ?_, ?_, fun u hu hun hux => ?_, fun u hu hun huy => ?_⟩
  · rw [prev_setNext hN hy hx, prev_setPrev_ne hN hy hn hny.symm, prev_setNext hN hy hn,
      prev_setPrev_self (hlt n hn)]
  · rw [next_setNext_ne hN hn hx hnx, next_setPrev hN hn hn, next_setNext_self (hlt y hy)]
  · rw [prev_setNext hN hn hx, prev_setPrev_self (hlt x hx)]
  · rw [next_setNext_ne hN hu hx hux, next_setPrev hN hu hn, next_setNext_ne hN hu hn hun,
      next_setPrev hN hu hy]
  · rw [prev_setNext hN hu hx, prev_setPrev_ne hN hu hn hun, prev_setNext hN hu hn,
      prev_setPrev_ne hN hu hy huy]

/-- The links after `__list_del`. -/
theorem listDelBetween_spec {x y : ℕ} (hN : NodesApart N) (hx : x ∈ N) (hy : y ∈ N) :
    next (listDelBetween m x y) x = y ∧ prev (listDelBetween m x y) y = x ∧
      (∀ u ∈ N, u ≠ x → next (listDelBetween m x y) u = next m u) ∧
      ∀ u ∈ N, u ≠ y → prev (listDelBetween m x y) u = prev m u := by
  have hlt : ∀ u ∈ N, u < 4294967296 := fun u hu => by have := hN.lt u hu; omega
  unfold listDelBetween
  refine ⟨next_setNext_self (hlt y hy), ?_, fun u hu hux => ?_, fun u hu huy => ?_⟩
  · rw [prev_setNext hN hy hx, prev_setPrev_self (hlt x hx)]
  · rw [next_setNext_ne hN hu hx hux, next_setPrev hN hu hy]
  · rw [prev_setNext hN hu hx, prev_setPrev_ne hN hu hy huy]

end

/-! ## Neighbours -/

theorem exists_before (h : ℕ) (l : List ℕ) : ∃ p x, h :: l = p ++ [x] ∧ x ∈ h :: l := by
  refine ⟨(h :: l).dropLast, (h :: l).getLast (List.cons_ne_nil h l),
    (List.dropLast_append_getLast _).symm, List.getLast_mem _⟩

theorem exists_after (h : ℕ) (l : List ℕ) : ∃ y q, l ++ [h] = y :: q ∧ y ∈ h :: l := by
  cases l with
  | nil => exact ⟨h, [], rfl, List.mem_singleton_self h⟩
  | cons a l => exact ⟨a, l ++ [h], rfl, List.mem_cons_of_mem _ List.mem_cons_self⟩

/-- The first node that a walk from the head meets. -/
theorem next_head {m : Mem} {h y : ℕ} {l q : List ℕ} (hr : LinkRing m h l) (hq : l ++ [h] = y :: q) :
    next m h = y := by
  have hh : [h] = [] ++ [h] := rfl
  rw [← List.nil_append l] at hr
  exact ((ring_split hh hq).1 hr).2.1.1

theorem prev_head {m : Mem} {h x : ℕ} {l p : List ℕ} (hr : LinkRing m h l) (hp : h :: l = p ++ [x]) :
    prev m h = x := by
  rw [← List.append_nil l] at hr
  exact ((ring_split (q := []) hp rfl).1 hr).2.1.2

theorem next_entry {m : Mem} {h n y : ℕ} {l₁ l₂ q : List ℕ} (hr : LinkRing m h (l₁ ++ n :: l₂))
    (hq : l₂ ++ [h] = y :: q) : next m n = y := by
  obtain ⟨p, x, hp, _⟩ := exists_before h l₁
  exact ((ring_split_cons hp hq).1 hr).2.2.1.1

theorem prev_entry {m : Mem} {h n x : ℕ} {l₁ l₂ p : List ℕ} (hr : LinkRing m h (l₁ ++ n :: l₂))
    (hp : h :: l₁ = p ++ [x]) : prev m n = x := by
  obtain ⟨y, q, hq, _⟩ := exists_after h l₂
  exact ((ring_split_cons hp hq).1 hr).2.1.2

/-! ## What the memory means -/

/-- The lists by their heads. -/
abbrev ListMap := ℕ → Option (List ℕ)

/-- The memory holds these lists, and they share no node. -/
structure Lists (N : List ℕ) (m : Mem) (L : ListMap) : Prop where
  nodes : ∀ h l, L h = some l → ∀ u ∈ h :: l, u ∈ N
  nodup : ∀ h l, L h = some l → (h :: l).Nodup
  apart : ∀ h l h' l', L h = some l → L h' = some l' → h ≠ h' → ∀ u ∈ h :: l, u ∉ h' :: l'
  ring : ∀ h l, L h = some l → LinkRing m h l

/-- The node is an element of a list. -/
def Member (L : ListMap) (n : ℕ) : Prop := ∃ h l, L h = some l ∧ n ∈ l

/-- The node is an element, or is initialised. -/
def Linked (L : ListMap) (n : ℕ) : Prop := Member L n ∨ L n = some []

/-- The node is neither a head nor an element. -/
def Loose (L : ListMap) (n : ℕ) : Prop := ∀ h l, L h = some l → n ∉ h :: l

/-- The lists without a node. -/
def eraseNode (L : ListMap) (n : ℕ) : ListMap := fun h => (L h).map (·.erase n)

/-- The element comes first in the list. -/
def push (L : ListMap) (n head : ℕ) : ListMap :=
  Function.update (Function.update L n none) head ((L head).map (n :: ·))

def pushTail (L : ListMap) (n head : ℕ) : ListMap :=
  Function.update (Function.update L n none) head ((L head).map (· ++ [n]))

theorem loose_update_none {L : ListMap} {n : ℕ} (h : ¬ Member L n) :
    Loose (Function.update L n none) n := by
  intro g l hg hmem
  by_cases hgn : g = n
  · rw [hgn, Function.update_self] at hg
    cases hg
  · rw [Function.update_of_ne hgn] at hg
    rcases List.mem_cons.1 hmem with e | hmem
    · exact hgn e.symm
    · exact h ⟨g, l, hg, hmem⟩

section

variable {N : List ℕ} {m m' : Mem} {L : ListMap} {h n : ℕ} {l l₁ l₂ : List ℕ}

/-- A list is forgotten. -/
theorem Lists.drop (hL : Lists N m L) (n : ℕ) : Lists N m (Function.update L n none) := by
  have hold : ∀ {g k}, Function.update L n none g = some k → L g = some k := by
    intro g k hg
    by_cases hgn : g = n
    · rw [hgn, Function.update_self] at hg
      cases hg
    · rwa [Function.update_of_ne hgn] at hg
  exact ⟨fun g k hg => hL.nodes g k (hold hg), fun g k hg => hL.nodup g k (hold hg),
    fun g k g' k' hg hg' => hL.apart g k g' k' (hold hg) (hold hg'),
    fun g k hg => hL.ring g k (hold hg)⟩

/-- One list is set. Its nodes are not those of the others, whose links stay. -/
theorem Lists.set (hL : Lists N m L) (hnodes : ∀ u ∈ h :: l, u ∈ N) (hnodup : (h :: l).Nodup)
    (hring : LinkRing m' h l) (hothers : ∀ g k, g ≠ h → L g = some k → ∀ u ∈ g :: k,
      u ∉ h :: l ∧ next m' u = next m u ∧ prev m' u = prev m u) :
    Lists N m' (Function.update L h (some l)) := by
  refine ⟨fun g k hg => ?_, fun g k hg => ?_, fun g k g' k' hg hg' hne u hu hu' => ?_,
    fun g k hg => ?_⟩
  · by_cases hgh : g = h
    · rw [hgh, Function.update_self] at hg
      cases hg
      rw [hgh]
      exact hnodes
    · rw [Function.update_of_ne hgh] at hg
      exact hL.nodes g k hg
  · by_cases hgh : g = h
    · rw [hgh, Function.update_self] at hg
      cases hg
      rw [hgh]
      exact hnodup
    · rw [Function.update_of_ne hgh] at hg
      exact hL.nodup g k hg
  · by_cases hgh : g = h
    · have hgh' : g' ≠ h := fun e => hne (hgh.trans e.symm)
      rw [hgh, Function.update_self] at hg
      cases hg
      rw [hgh] at hu
      rw [Function.update_of_ne hgh'] at hg'
      exact (hothers g' k' hgh' hg' u hu').1 hu
    · rw [Function.update_of_ne hgh] at hg
      by_cases hgh' : g' = h
      · rw [hgh', Function.update_self] at hg'
        cases hg'
        rw [hgh'] at hu'
        exact (hothers g k hgh hg u hu).1 hu'
      · rw [Function.update_of_ne hgh'] at hg'
        exact hL.apart g k g' k' hg hg' hne u hu hu'
  · by_cases hgh : g = h
    · rw [hgh, Function.update_self] at hg
      cases hg
      rw [hgh]
      exact hring
    · rw [Function.update_of_ne hgh] at hg
      exact (hL.ring g k hg).congr (fun u hu => (hothers g k hgh hg u hu).2.1)
        fun u hu => (hothers g k hgh hg u hu).2.2

/-- Links that no list has do not matter. -/
theorem Lists.congr (hL : Lists N m L) (h : ∀ g k, L g = some k → ∀ u ∈ g :: k,
    next m' u = next m u ∧ prev m' u = prev m u) : Lists N m' L :=
  ⟨hL.nodes, hL.nodup, hL.apart, fun g k hg =>
    (hL.ring g k hg).congr (fun u hu => (h g k hg u hu).1) fun u hu => (h g k hg u hu).2⟩

/-- The links of a loose node do not matter. -/
theorem Lists.setNext (hL : Lists N m L) (hN : NodesApart N) (hn : n ∈ N) (hl : Loose L n)
    (v : ℕ) : Lists N (setNext m n v) L :=
  hL.congr fun g k hg u hu => by
    have hne : u ≠ n := by
      rintro rfl
      exact hl g k hg hu
    have huN := hL.nodes g k hg u hu
    exact ⟨next_setNext_ne hN huN hn hne, prev_setNext hN huN hn⟩

theorem Lists.setPrev (hL : Lists N m L) (hN : NodesApart N) (hn : n ∈ N) (hl : Loose L n)
    (v : ℕ) : Lists N (setPrev m n v) L :=
  hL.congr fun g k hg u hu => by
    have hne : u ≠ n := by
      rintro rfl
      exact hl g k hg hu
    have huN := hL.nodes g k hg u hu
    exact ⟨next_setPrev hN huN hn, prev_setPrev_ne hN huN hn hne⟩

/-- **Initialisation** of a loose node. -/
theorem Lists.initLoose (hL : Lists N m L) (hN : NodesApart N) (hn : n ∈ N) (hl : Loose L n) :
    Lists N (initListHead m n) (Function.update L n (some [])) := by
  have hlt : n < 4294967296 := by have := hN.lt n hn; omega
  have hL' := (hL.setNext hN hn hl n).setPrev hN hn hl n
  refine hL'.set (fun u hu => by rw [List.mem_singleton.1 hu]; exact hn) (List.nodup_singleton n) ?_
    fun g k _ hg u hu => ⟨fun e => ?_, rfl, rfl⟩
  · have hnext : next (initListHead m n) n = n := by
      unfold initListHead
      rw [next_setPrev hN hn hn, next_setNext_self hlt]
    exact List.isChain_pair.2 ⟨hnext, prev_setPrev_self hlt⟩
  · rw [List.mem_singleton.1 e] at hu
    exact hl g k hg hu

/-- **Insertion** of a loose node between two neighbours. -/
theorem Lists.link (hL : Lists N m L) (hN : NodesApart N) (hn : n ∈ N) (hl : Loose L n)
    (hh : L h = some (l₁ ++ l₂)) {p q : List ℕ} {x y : ℕ} (hp : h :: l₁ = p ++ [x])
    (hq : l₂ ++ [h] = y :: q) :
    Lists N (listAddBetween m n x y) (Function.update L h (some (l₁ ++ n :: l₂))) := by
  have hnodes := hL.nodes h _ hh
  have hfresh := hl h _ hh
  have hxmem : x ∈ h :: (l₁ ++ l₂) := by
    have hx : x ∈ h :: l₁ := by rw [hp]; simp
    rw [← List.cons_append]
    exact List.mem_append_left _ hx
  have hymem : y ∈ h :: (l₁ ++ l₂) := by
    have hy : y ∈ l₂ ++ [h] := by rw [hq]; simp
    rcases List.mem_append.1 hy with hy | hy
    · exact List.mem_cons_of_mem _ (List.mem_append_right _ hy)
    · rw [List.mem_singleton.1 hy]
      exact List.mem_cons_self
  have hnx : n ≠ x := fun e => hfresh (e ▸ hxmem)
  have hny : n ≠ y := fun e => hfresh (e ▸ hymem)
  obtain ⟨h1, h2, h3, h4, h5, h6⟩ :=
    listAddBetween_spec (m := m) hN hn (hnodes x hxmem) (hnodes y hymem) hnx hny
  have hperm : (h :: (l₁ ++ n :: l₂)).Perm (n :: h :: (l₁ ++ l₂)) := by
    rw [← List.cons_append, ← List.cons_append]
    exact List.perm_middle
  have hnodup : (n :: h :: (l₁ ++ l₂)).Nodup := List.nodup_cons.2 ⟨hfresh, hL.nodup h _ hh⟩
  have hall : ∀ u ∈ n :: h :: (l₁ ++ l₂), u ∈ N := fun u hu => by
    rcases List.mem_cons.1 hu with rfl | hu
    · exact hn
    · exact hnodes u hu
  have hap : NodesApart (n :: h :: (l₁ ++ l₂)) :=
    ⟨hnodup, fun u hu v hv => hN.apart u (hall u hu) v (hall v hv), fun u hu => hN.lt u (hall u hu)⟩
  refine hL.set (fun u hu => hall u (hperm.mem_iff.1 hu)) (hperm.nodup_iff.2 hnodup) ?_
    fun g k hg hgk u hu => ?_
  · exact (hL.ring h _ hh).insert hap hp hq h1 h2 h3 h4
      (fun u hu hux => h5 u (hnodes u hu) (fun e => hfresh (e ▸ hu)) hux)
      fun u hu huy => h6 u (hnodes u hu) (fun e => hfresh (e ▸ hu)) huy
  · have huN := hL.nodes g k hgk u hu
    have hun : u ≠ n := fun e => hl g k hgk (e ▸ hu)
    have hout : u ∉ h :: (l₁ ++ l₂) := hL.apart g k h _ hgk hh hg u hu
    refine ⟨fun e => ?_, h5 u huN hun fun e => hout (e ▸ hxmem),
      h6 u huN hun fun e => hout (e ▸ hymem)⟩
    rcases List.mem_cons.1 (hperm.mem_iff.1 e) with e | e
    · exact hun e
    · exact hout e

/-- **Removal** of an element. -/
theorem Lists.unlink (hL : Lists N m L) (hN : NodesApart N) (hh : L h = some (l₁ ++ n :: l₂)) :
    Lists N (listDelEntry m n) (Function.update L h (some (l₁ ++ l₂))) := by
  obtain ⟨p, x, hp, hx⟩ := exists_before h l₁
  obtain ⟨y, q, hq, hy⟩ := exists_after h l₂
  have hring := hL.ring h _ hh
  have hsub : (h :: (l₁ ++ l₂)).Sublist (h :: (l₁ ++ n :: l₂)) :=
    ((List.sublist_cons_self n l₂).append_left l₁).cons_cons h
  have hnodes : ∀ u ∈ h :: (l₁ ++ l₂), u ∈ N := fun u hu => hL.nodes h _ hh u (hsub.subset hu)
  have hxmem : x ∈ h :: (l₁ ++ l₂) := by
    rw [← List.cons_append]
    exact List.mem_append_left _ hx
  have hymem : y ∈ h :: (l₁ ++ l₂) := by
    rcases List.mem_cons.1 hy with rfl | hy
    · exact List.mem_cons_self
    · exact List.mem_cons_of_mem _ (List.mem_append_right _ hy)
  have hnodup := (hL.nodup h _ hh).sublist hsub
  have hap : NodesApart (h :: (l₁ ++ l₂)) :=
    ⟨hnodup, fun u hu v hv => hN.apart u (hnodes u hu) v (hnodes v hv),
      fun u hu => hN.lt u (hnodes u hu)⟩
  obtain ⟨h1, h2, h3, h4⟩ :=
    listDelBetween_spec (m := m) hN (hnodes x hxmem) (hnodes y hymem)
  unfold listDelEntry
  rw [prev_entry hring hp, next_entry hring hq]
  refine hL.set hnodes hnodup ?_ fun g k hg hgk u hu => ?_
  · exact hring.remove hap hp hq h1 h2 (fun u hu hux => h3 u (hnodes u hu) hux)
      fun u hu huy => h4 u (hnodes u hu) huy
  · have huN := hL.nodes g k hgk u hu
    have hout : u ∉ h :: (l₁ ++ l₂) := fun e =>
      hL.apart g k h _ hgk hh hg u hu (hsub.subset e)
    exact ⟨hout, h3 u huN fun e => hout (e ▸ hxmem), h4 u huN fun e => hout (e ▸ hymem)⟩

/-- The lists without an element, in terms of the list that has it. -/
theorem eraseNode_eq (hL : Lists N m L) (hh : L h = some (l₁ ++ n :: l₂)) :
    eraseNode L n = Function.update L h (some (l₁ ++ l₂)) := by
  have hnodup := hL.nodup h _ hh
  have hn₁ : n ∉ l₁ := fun e =>
    (List.nodup_append.1 (List.nodup_cons.1 hnodup).2).2.2 n e n List.mem_cons_self rfl
  funext g
  unfold eraseNode
  by_cases hg : g = h
  · rw [hg, Function.update_self, hh, Option.map_some, List.erase_append_right _ hn₁,
      List.erase_cons_head]
  · rw [Function.update_of_ne hg]
    cases hgk : L g with
    | none => rfl
    | some k =>
      have hnk : n ∉ g :: k := hL.apart h _ g k hh hgk (Ne.symm hg) n (by simp)
      rw [Option.map_some, List.erase_of_not_mem fun e => hnk (List.mem_cons_of_mem _ e)]

theorem eraseNode_of_self (hL : Lists N m L) (hn : L n = some []) : eraseNode L n = L := by
  funext g
  unfold eraseNode
  cases hg : L g with
  | none => rfl
  | some k =>
    rw [Option.map_some]
    by_cases hgn : g = n
    · rw [hgn, hn] at hg
      cases hg
      rfl
    · have hnk : n ∉ g :: k := hL.apart n _ g k hn hg (Ne.symm hgn) n List.mem_cons_self
      rw [List.erase_of_not_mem fun e => hnk (List.mem_cons_of_mem _ e)]

theorem isSome_eraseNode : (eraseNode L n h).isSome = (L h).isSome := Option.isSome_map

theorem not_member_eraseNode (hL : Lists N m L) (n : ℕ) : ¬ Member (eraseNode L n) n := by
  rintro ⟨g, k, hg, hnk⟩
  obtain ⟨k', hk', rfl⟩ := Option.map_eq_some_iff.1 hg
  exact List.Nodup.not_mem_erase (List.nodup_cons.1 (hL.nodup g k' hk')).2 hnk

theorem Lists.mem_nodes (hL : Lists N m L) (hn : Linked L n) : n ∈ N := by
  rcases hn with ⟨g, k, hg, hnk⟩ | hn
  · exact hL.nodes g k hg n (List.mem_cons_of_mem _ hnk)
  · exact hL.nodes n [] hn n List.mem_cons_self

/-- `__list_del_entry` takes the node out of its list; an initialised node stays as it is. -/
theorem Lists.delEntry (hL : Lists N m L) (hN : NodesApart N) (hn : Linked L n) :
    Lists N (listDelEntry m n) (eraseNode L n) := by
  rcases hn with ⟨h, l, hh, hnl⟩ | hn
  · obtain ⟨l₁, l₂, rfl⟩ := List.append_of_mem hnl
    rw [eraseNode_eq hL hh]
    exact hL.unlink hN hh
  · rw [eraseNode_of_self hL hn]
    have hnN := hL.nodes n [] hn n List.mem_cons_self
    have hring := hL.ring n [] hn
    have hnext : next m n = n := next_head (q := []) hring rfl
    have hprev : prev m n = n := prev_head (p := []) hring rfl
    unfold listDelEntry
    rw [hnext, hprev]
    obtain ⟨h1, h2, h3, h4⟩ := listDelBetween_spec (m := m) hN hnN hnN
    refine hL.congr fun g k hg u hu => ?_
    have huN := hL.nodes g k hg u hu
    by_cases hun : u = n
    · rw [hun, h1, h2, hnext, hprev]
      exact ⟨rfl, rfl⟩
    · exact ⟨h3 u huN hun, h4 u huN hun⟩

theorem touches_listDelEntry (hL : Lists N m L) (hN : NodesApart N) (hn : Linked L n) :
    Touches N m (listDelEntry m n) := by
  rcases hn with ⟨h, l, hh, hnl⟩ | hn
  · obtain ⟨l₁, l₂, rfl⟩ := List.append_of_mem hnl
    obtain ⟨p, x, hp, hx⟩ := exists_before h l₁
    obtain ⟨y, q, hq, hy⟩ := exists_after h l₂
    unfold listDelEntry
    rw [prev_entry (hL.ring h _ hh) hp, next_entry (hL.ring h _ hh) hq]
    refine touches_listDelBetween hN (hL.nodes h _ hh x ?_) (hL.nodes h _ hh y ?_)
    · rw [← List.cons_append]
      exact List.mem_append_left _ hx
    · rcases List.mem_cons.1 hy with rfl | hy
      · exact List.mem_cons_self
      · exact List.mem_cons_of_mem _ (List.mem_append_right _ (List.mem_cons_of_mem _ hy))
  · have hnN := hL.nodes n [] hn n List.mem_cons_self
    unfold listDelEntry
    rw [show next m n = n from next_head (q := []) (hL.ring n [] hn) rfl,
      show prev m n = n from prev_head (p := []) (hL.ring n [] hn) rfl]
    exact touches_listDelBetween hN hnN hnN

/-- `list_add` of a node that is no element; a list that it heads is forgotten. -/
theorem Lists.add (hL : Lists N m L) (hN : NodesApart N) (hn : n ∈ N) (hne : n ≠ h)
    (hmem : ¬ Member L n) (hsome : (L h).isSome) :
    Lists N (listAdd m n h) (push L n h) ∧ Touches N m (listAdd m n h) := by
  obtain ⟨l, hh⟩ := Option.isSome_iff_exists.1 hsome
  obtain ⟨y, q, hq, hy⟩ := exists_after h l
  have hh' : Function.update L n none h = some ([] ++ l) := by
    rw [Function.update_of_ne hne.symm, hh]
    rfl
  have hnext : next m h = y := next_head (hL.ring h l hh) hq
  unfold listAdd push
  rw [hnext, hh]
  exact ⟨(hL.drop n).link hN hn (loose_update_none hmem) hh' (p := []) rfl hq,
    touches_listAddBetween hN hn (hL.nodes h l hh h List.mem_cons_self) (hL.nodes h l hh y hy)⟩

theorem Lists.addTail (hL : Lists N m L) (hN : NodesApart N) (hn : n ∈ N) (hne : n ≠ h)
    (hmem : ¬ Member L n) (hsome : (L h).isSome) :
    Lists N (listAddTail m n h) (pushTail L n h) ∧ Touches N m (listAddTail m n h) := by
  obtain ⟨l, hh⟩ := Option.isSome_iff_exists.1 hsome
  obtain ⟨p, x, hp, hx⟩ := exists_before h l
  have hh' : Function.update L n none h = some (l ++ []) := by
    rw [Function.update_of_ne hne.symm, hh, List.append_nil]
  have hprev : prev m h = x := prev_head (hL.ring h l hh) hp
  unfold listAddTail pushTail
  rw [hprev, hh]
  exact ⟨(hL.drop n).link hN hn (loose_update_none hmem) hh' hp (q := []) rfl,
    touches_listAddBetween hN hn (hL.nodes h l hh x hx) (hL.nodes h l hh h List.mem_cons_self)⟩

/-- `INIT_LIST_HEAD` of a node that is no element. -/
theorem Lists.init (hL : Lists N m L) (hN : NodesApart N) (hn : n ∈ N) (hmem : ¬ Member L n) :
    Lists N (initListHead m n) (Function.update L n (some [])) := by
  have h := (hL.drop n).initLoose hN hn (loose_update_none hmem)
  rwa [Function.update_idem] at h

end

/-! ## Runs -/

inductive Op where
  | init (p : ℕ)
  | add (n head : ℕ)
  | addTail (n head : ℕ)
  | del (entry : ℕ)
  | delInit (entry : ℕ)
  | move (list head : ℕ)
  | moveTail (list head : ℕ)

namespace Op

def exec (m : Mem) : Op → Mem
  | init p => initListHead m p
  | add n head => listAdd m n head
  | addTail n head => listAddTail m n head
  | del entry => listDel m entry
  | delInit entry => listDelInit m entry
  | move list head => listMove m list head
  | moveTail list head => listMoveTail m list head

/-- What the functions are for. -/
def apply (L : ListMap) : Op → ListMap
  | init p => Function.update L p (some [])
  | add n head => push L n head
  | addTail n head => pushTail L n head
  | del entry => Function.update (eraseNode L entry) entry none
  | delInit entry => Function.update (eraseNode L entry) entry (some [])
  | move list head => push (eraseNode L list) list head
  | moveTail list head => pushTail (eraseNode L list) list head

/-- What the functions rely on: an element is not added again or made a head, only an element or an
initialised node is taken out, and the list exists. -/
def Allowed (N : List ℕ) (L : ListMap) : Op → Prop
  | init p => p ∈ N ∧ ¬ Member L p
  | add n head => n ∈ N ∧ n ≠ head ∧ ¬ Member L n ∧ (L head).isSome
  | addTail n head => n ∈ N ∧ n ≠ head ∧ ¬ Member L n ∧ (L head).isSome
  | del entry => Linked L entry
  | delInit entry => Linked L entry
  | move list head => Linked L list ∧ list ≠ head ∧ (L head).isSome
  | moveTail list head => Linked L list ∧ list ≠ head ∧ (L head).isSome

end Op

section

variable {N : List ℕ} {m : Mem} {L : ListMap}

/-- **One call.** -/
theorem Lists.step (hL : Lists N m L) (hN : NodesApart N) {o : Op} (ho : o.Allowed N L) :
    Lists N (o.exec m) (o.apply L) ∧ Touches N m (o.exec m) := by
  cases o with
  | init p => exact ⟨hL.init hN ho.1 ho.2, touches_initListHead hN ho.1⟩
  | add n head => exact hL.add hN ho.1 ho.2.1 ho.2.2.1 ho.2.2.2
  | addTail n head => exact hL.addTail hN ho.1 ho.2.1 ho.2.2.1 ho.2.2.2
  | del entry =>
    have hn := hL.mem_nodes ho
    have hloose := loose_update_none (not_member_eraseNode hL entry)
    have h := (hL.delEntry hN ho).drop entry
    exact ⟨(h.setNext hN hn hloose 0).setPrev hN hn hloose 0,
      ((touches_listDelEntry hL hN ho).trans (touches_setNext hN hn)).trans (touches_setPrev hN hn)⟩
  | delInit entry =>
    have hn := hL.mem_nodes ho
    exact ⟨(hL.delEntry hN ho).init hN hn (not_member_eraseNode hL entry),
      (touches_listDelEntry hL hN ho).trans (touches_initListHead hN hn)⟩
  | move list head =>
    obtain ⟨ho, hne, hsome⟩ := ho
    obtain ⟨h1, h2⟩ := (hL.delEntry hN ho).add hN (hL.mem_nodes ho) hne
      (not_member_eraseNode hL list) (isSome_eraseNode.trans hsome)
    exact ⟨h1, (touches_listDelEntry hL hN ho).trans h2⟩
  | moveTail list head =>
    obtain ⟨ho, hne, hsome⟩ := ho
    obtain ⟨h1, h2⟩ := (hL.delEntry hN ho).addTail hN (hL.mem_nodes ho) hne
      (not_member_eraseNode hL list) (isSome_eraseNode.trans hsome)
    exact ⟨h1, (touches_listDelEntry hL hN ho).trans h2⟩

/-! ## Loops -/

/-- The links lead from `pos` through the nodes to the head. -/
def Path (link : ℕ → ℕ) (head : ℕ) : ℕ → List ℕ → Prop
  | pos, [] => pos = head
  | pos, x :: rest => pos = x ∧ x ≠ head ∧ Path link head (link x) rest

theorem path_of_isChain {link : ℕ → ℕ} {head : ℕ} : ∀ {l : List ℕ} {a : ℕ},
    (a :: (l ++ [head])).IsChain (fun u v => link u = v) → head ∉ l → Path link head (link a) l := by
  intro l
  induction l with
  | nil => exact fun h _ => (List.isChain_cons_cons.1 h).1
  | cons x l ih =>
    intro a h hne
    rw [List.cons_append, List.isChain_cons_cons] at h
    rw [List.mem_cons, not_or] at hne
    exact ⟨h.1, Ne.symm hne.1, ih h.2 hne.2⟩

theorem Lists.path_next (hL : Lists N m L) {h : ℕ} {l : List ℕ} (hh : L h = some l) :
    Path (next m) h (next m h) l :=
  path_of_isChain ((hL.ring h l hh).imp fun _ _ hlink => hlink.1)
    (List.nodup_cons.1 (hL.nodup h l hh)).1

theorem Lists.path_prev (hL : Lists N m L) {h : ℕ} {l : List ℕ} (hh : L h = some l) :
    Path (prev m) h (prev m h) l.reverse := by
  have hback : (h :: (l.reverse ++ [h])).IsChain (fun u v => prev m u = v) := by
    have hrev : h :: (l.reverse ++ [h]) = (h :: (l ++ [h])).reverse := by
      rw [List.reverse_cons, List.reverse_append, List.reverse_singleton, List.singleton_append,
        List.cons_append]
    rw [hrev, List.isChain_reverse]
    exact (hL.ring h l hh).imp fun _ _ hlink => hlink.2
  refine path_of_isChain hback ?_
  rw [List.mem_reverse]
  exact (List.nodup_cons.1 (hL.nodup h l hh)).1

theorem sizeFrom_eq {head : ℕ} : ∀ {l : List ℕ} {fuel p size : ℕ}, Path (next m) head p l →
    l.length < fuel → sizeFrom m head fuel p size = some (size + l.length) := by
  intro l
  induction l with
  | nil =>
    intro fuel p size hp hf
    obtain ⟨fuel, rfl⟩ := Nat.exists_eq_succ_of_ne_zero (Nat.ne_of_gt hf)
    rw [sizeFrom, if_pos (show p = head from hp)]
    rfl
  | cons x l ih =>
    intro fuel p size hp hf
    obtain ⟨rfl, hne, hp⟩ := hp
    obtain ⟨fuel, rfl⟩ := Nat.exists_eq_succ_of_ne_zero (Nat.ne_of_gt (Nat.zero_lt_of_lt hf))
    rw [List.length_cons] at hf ⊢
    rw [sizeFrom, if_neg hne, ih hp (Nat.succ_lt_succ_iff.1 hf), Nat.add_right_comm, Nat.add_assoc]

section

variable {σ : Type} {mem : σ → Mem} {body : σ → ℕ → σ} {head : ℕ}

/-- A loop whose body leaves the memory alone visits the nodes in order. -/
theorem forEachFrom_eq {link : Mem → ℕ → ℕ} (hbody : ∀ s x, mem (body s x) = mem s) :
    ∀ {l : List ℕ} {fuel pos : ℕ} {s : σ}, Path (link (mem s)) head pos l → l.length < fuel →
      forEachFrom mem body link head fuel s pos = some (l.foldl body s) := by
  intro l
  induction l with
  | nil =>
    intro fuel pos s hp hf
    obtain ⟨fuel, rfl⟩ := Nat.exists_eq_succ_of_ne_zero (Nat.ne_of_gt hf)
    rw [forEachFrom, if_pos (show pos = head from hp)]
    rfl
  | cons x l ih =>
    intro fuel pos s hp hf
    obtain ⟨rfl, hne, hp⟩ := hp
    obtain ⟨fuel, rfl⟩ := Nat.exists_eq_succ_of_ne_zero (Nat.ne_of_gt (Nat.zero_lt_of_lt hf))
    rw [List.length_cons] at hf
    rw [forEachFrom, if_neg hne]
    dsimp only
    rw [hbody]
    exact ih (by rwa [hbody]) (Nat.succ_lt_succ_iff.1 hf)

/-- The node a position of the list stands for: an element, or the head behind the last. -/
def first (head : ℕ) : List ℕ → ℕ
  | [] => head
  | x :: _ => x

/-- **The rule for `list_for_each_safe`.** The body may take the element it is given out of the list;
the links behind it have to be there before it runs, and for those not visited yet after it. -/
theorem forEachSafeFrom_inv {I : List ℕ → List ℕ → σ → Prop}
    (hlink : ∀ done x rest s, I done (x :: rest) s →
      x ≠ head ∧ next (mem s) x = first head rest)
    (hstep : ∀ done x rest s, I done (x :: rest) s → I (done ++ [x]) rest (body s x)) :
    ∀ {rest done : List ℕ} {fuel n : ℕ} {s : σ}, I done rest s → rest.length < fuel →
      (rest ≠ [] → n = next (mem s) (first head rest)) →
      ∃ s', forEachSafeFrom mem body head fuel s (first head rest) n = some s' ∧
        I (done ++ rest) [] s' := by
  intro rest
  induction rest with
  | nil =>
    intro done fuel n s hI hf _
    obtain ⟨fuel, rfl⟩ := Nat.exists_eq_succ_of_ne_zero (Nat.ne_of_gt hf)
    refine ⟨s, ?_, by rwa [List.append_nil]⟩
    rw [forEachSafeFrom, if_pos (show first head [] = head from rfl)]
  | cons x rest ih =>
    intro done fuel n s hI hf hn
    obtain ⟨fuel, rfl⟩ := Nat.exists_eq_succ_of_ne_zero (Nat.ne_of_gt (Nat.zero_lt_of_lt hf))
    rw [List.length_cons] at hf
    obtain ⟨hne, hnext⟩ := hlink done x rest s hI
    obtain ⟨s', hs', hI'⟩ := ih (hstep done x rest s hI) (Nat.succ_lt_succ_iff.1 hf)
      (n := next (mem (body s x)) (first head rest)) fun _ => rfl
    refine ⟨s', ?_, by rwa [List.append_assoc] at hI'⟩
    have hn' : n = first head rest := (hn (List.cons_ne_nil x rest)).trans hnext
    rw [forEachSafeFrom, show first head (x :: rest) = x from rfl, if_neg hne]
    dsimp only
    rw [hn']
    exact hs'

/-- What a body records beside the memory does not steer the loop. -/
theorem forEachSafeFrom_map {τ : Type} {mem' : τ → Mem} {body' : τ → ℕ → τ} (g : σ → τ)
    (hmem : ∀ s, mem' (g s) = mem s) (hbody : ∀ s x, body' (g s) x = g (body s x)) :
    ∀ (fuel : ℕ) (s : σ) (pos n : ℕ),
      forEachSafeFrom mem' body' head fuel (g s) pos n =
        (forEachSafeFrom mem body head fuel s pos n).map g := by
  intro fuel
  induction fuel with
  | zero => intro s pos n; rfl
  | succ fuel ih =>
    intro s pos n
    rw [forEachSafeFrom, forEachSafeFrom]
    by_cases hp : pos = head
    · rw [if_pos hp, if_pos hp, Option.map_some]
    · rw [if_neg hp, if_neg hp]
      dsimp only
      rw [hbody, hmem, ih]

end

/-! ## Main results -/

def Step (N : List ℕ) (s : Mem × ListMap) (o : Op) (s' : Mem × ListMap) : Prop :=
  o.Allowed N s.2 ∧ s' = (o.exec s.1, o.apply s.2)

/-- The memory means these lists to every function that reads it, and is as before elsewhere. -/
structure Faithful (N : List ℕ) (m₀ m : Mem) (L : ListMap) : Prop where
  lists : Lists N m L
  touches : Touches N m₀ m
  empty : ∀ h l, L h = some l → listEmpty m h = l.isEmpty
  size : ∀ h l fuel, L h = some l → l.length < fuel → listSize fuel m h = some l.length
  forward : ∀ {σ : Type} (mem : σ → Mem) (body : σ → ℕ → σ) (h : ℕ) (l : List ℕ) (fuel : ℕ) (s : σ),
    (∀ s x, mem (body s x) = mem s) → mem s = m → L h = some l → l.length < fuel →
    listForEach mem body fuel h s = some (l.foldl body s)
  backward : ∀ {σ : Type} (mem : σ → Mem) (body : σ → ℕ → σ) (h : ℕ) (l : List ℕ) (fuel : ℕ)
    (s : σ), (∀ s x, mem (body s x) = mem s) → mem s = m → L h = some l → l.length < fuel →
    listForEachPrev mem body fuel h s = some (l.reverse.foldl body s)

theorem Lists.faithful (hL : Lists N m L) {m₀ : Mem} (h0 : 0 ∉ N) (ht : Touches N m₀ m) :
    Faithful N m₀ m L := by
  refine ⟨hL, ht, fun h l hh => ?_, fun h l fuel hh hf => ?_,
    fun mem body h l fuel s hbody hs hh hf => ?_, fun mem body h l fuel s hbody hs hh hf => ?_⟩
  · obtain ⟨y, q, hq, hy⟩ := exists_after h l
    have hnext := next_head (hL.ring h l hh) hq
    have hy0 : y ≠ 0 := fun e => h0 (e ▸ hL.nodes h l hh y hy)
    unfold listEmpty
    rw [hnext]
    cases l with
    | nil =>
      cases hq
      simp
    | cons a l =>
      have hya : a = y := (List.cons.inj hq).1
      have hne : y ≠ h := fun e =>
        (List.nodup_cons.1 (hL.nodup h _ hh)).1 (e ▸ hya ▸ List.mem_cons_self)
      simp [hne, hy0]
  · unfold listSize
    rw [sizeFrom_eq (hL.path_next hh) hf, Nat.zero_add]
  · unfold listForEach
    refine forEachFrom_eq hbody ?_ hf
    rw [hs]
    exact hL.path_next hh
  · unfold listForEachPrev
    refine forEachFrom_eq hbody ?_ (by rwa [List.length_reverse])
    rw [hs]
    exact hL.path_prev hh

theorem run_lists (hN : NodesApart N) {m₀ : Mem} {os : List Op} {s : Mem × ListMap}
    (hrun : Run (Step N) (m₀, fun _ => none) os s) : Lists N s.1 s.2 ∧ Touches N m₀ s.1 := by
  refine hrun.invariant (I := fun s => Lists N s.1 s.2 ∧ Touches N m₀ s.1) (C := fun _ _ => True)
    (fun s o s' hI _ hs => ?_) (along_true _ _) ⟨⟨?_, ?_, ?_, ?_⟩, fun _ _ => rfl⟩
  · obtain ⟨ho, rfl⟩ := hs
    obtain ⟨h1, h2⟩ := hI.1.step hN ho
    exact ⟨h1, hI.2.trans h2⟩
  · exact fun _ _ h => by cases h
  · exact fun _ _ h => by cases h
  · exact fun _ _ _ _ h => by cases h
  · exact fun _ _ h => by cases h

/-- **The lists.** After any calls, whatever the memory was at first, it holds the lists that the
calls describe, for as many heads as there are. -/
theorem lists_run (hN : NodesApart N) (h0 : 0 ∉ N) (m₀ : Mem) (os : List Op) (s : Mem × ListMap)
    (hrun : Run (Step N) (m₀, fun _ => none) os s) : Faithful N m₀ s.1 s.2 :=
  (run_lists hN hrun).1.faithful h0 (run_lists hN hrun).2

/-- Two heads and two elements. -/
def sampleNodes : List ℕ := [16, 32, 48, 64]

def sampleOps : List Op := [.init 16, .init 48, .addTail 32 16, .addTail 64 16]

theorem sampleNodes_apart : NodesApart sampleNodes := ⟨by decide, by decide, by decide⟩

theorem exists_sample : ∃ s, Run (Step sampleNodes) (fun _ => 0, fun _ => none) sampleOps s ∧
    s.2 16 = some [32, 64] ∧ s.2 48 = some [] := by
  refine ⟨_, .cons ⟨?_, rfl⟩ (.cons ⟨?_, rfl⟩ (.cons ⟨?_, rfl⟩ (.cons ⟨?_, rfl⟩ (.nil _)))),
    rfl, rfl⟩
  · simp [Op.Allowed, Member, sampleNodes]
  · simp [Op.Allowed, Op.apply, Member, Function.update_apply, sampleNodes]
  · simp [Op.Allowed, Op.apply, Member, Function.update_apply, sampleNodes]
    intro h l hl
    split_ifs at hl <;> cases hl <;> decide
  · simp [Op.Allowed, Op.apply, pushTail, Member, Function.update_apply, sampleNodes]
    intro h l hl
    split_ifs at hl <;> cases hl <;> decide

theorem lists_run_sample : ∃ s, Run (Step sampleNodes) (fun _ => 0, fun _ => none) sampleOps s ∧
    s.2 16 = some [32, 64] ∧ Faithful sampleNodes (fun _ => 0) s.1 s.2 := by
  obtain ⟨s, hrun, h16, _⟩ := exists_sample
  exact ⟨s, hrun, h16, lists_run sampleNodes_apart (by decide) _ _ s hrun⟩

/-- A loop that moves some elements to the end of another list. -/
def moveSome (p : ℕ → Bool) (h' : ℕ) (m : Mem) (x : ℕ) : Mem :=
  if p x then listMoveTail m x h' else m

/-- The same loop; it also writes down which elements it was given, in order. -/
def moveVisited (p : ℕ → Bool) (h' : ℕ) (s : Mem × List ℕ) (x : ℕ) : Mem × List ℕ :=
  (moveSome p h' s.1 x, s.2 ++ [x])

/-- The two lists in the middle of such a loop. -/
theorem Lists.moveSome (hL : Lists N m L) (hN : NodesApart N) {p : ℕ → Bool} {h h' x : ℕ}
    {kept rest l' : List ℕ} (hne : h ≠ h') (hh : L h = some (kept ++ x :: rest))
    (hh' : L h' = some l') :
    Lists N (moveSome p h' m x) (Function.update
        (Function.update L h (some ((if p x then kept else kept ++ [x]) ++ rest))) h'
        (some (if p x then l' ++ [x] else l'))) ∧
      Touches N m (moveSome p h' m x) := by
  unfold Cllist.moveSome
  by_cases hp : p x = true
  · rw [if_pos hp, if_pos hp, if_pos hp]
    have hmem : Linked L x := Or.inl ⟨h, _, hh, by simp⟩
    have hxh : x ≠ h := fun e => (List.nodup_cons.1 (hL.nodup h _ hh)).1 (e ▸ by simp)
    have hxh' : x ≠ h' := fun e =>
      hL.apart h _ h' _ hh hh' hne x (by simp) (e ▸ List.mem_cons_self)
    have hxnone : L x = none := by
      cases hx : L x with
      | none => rfl
      | some k => exact absurd List.mem_cons_self (hL.apart h _ x k hh hx hxh.symm x (by simp))
    have hstep := hL.step hN (o := .moveTail x h') ⟨hmem, hxh', by rw [hh']; rfl⟩
    have happly : Op.apply L (.moveTail x h') = Function.update
        (Function.update L h (some (kept ++ rest))) h' (some (l' ++ [x])) := by
      show pushTail (eraseNode L x) x h' = _
      unfold pushTail
      have hself : Function.update (Function.update L h (some (kept ++ rest))) x none =
          Function.update L h (some (kept ++ rest)) := by
        rw [Function.update_eq_self_iff, Function.update_of_ne hxh, hxnone]
      rw [eraseNode_eq hL hh, Function.update_of_ne hne.symm, hh', Option.map_some, hself]
    rw [happly] at hstep
    exact hstep
  · have hself : Function.update L h (some (kept ++ x :: rest)) = L :=
      Function.update_eq_self_iff.2 hh.symm
    have hself' : Function.update L h' (some l') = L := Function.update_eq_self_iff.2 hh'.symm
    rw [if_neg hp, if_neg hp, if_neg hp, List.append_assoc, List.singleton_append, hself, hself']
    exact ⟨hL, fun _ _ => rfl⟩

/-- Two heads are set once more. -/
theorem update_pair {h h' : ℕ} (hne : h ≠ h') (L : ListMap) (A A' B B' : Option (List ℕ)) :
    Function.update (Function.update (Function.update (Function.update L h A) h' B) h A') h' B' =
      Function.update (Function.update L h A') h' B' := by
  rw [Function.update_comm hne A B L, Function.update_idem, Function.update_comm hne.symm B A' L,
    Function.update_idem]

/-- In the middle of the loop: `done` has been visited, `rest` has not. -/
structure Moving (N : List ℕ) (m : Mem) (L : ListMap) (p : ℕ → Bool) (h h' : ℕ) (l' : List ℕ)
    (done rest : List ℕ) (m' : Mem) : Prop where
  touches : Touches N m m'
  lists : Lists N m' (Function.update
    (Function.update L h (some ((done.filter fun x => !p x) ++ rest))) h' (some (l' ++ done.filter p)))

section

variable {p : ℕ → Bool} {h h' x : ℕ} {l l' done rest : List ℕ}

theorem moving_head (hne : h ≠ h') : Function.update (Function.update L h (some l)) h' (some l') h =
    some l := by
  rw [Function.update_of_ne hne, Function.update_self]

theorem first_eq {y : ℕ} {q : List ℕ} (hq : l ++ [h] = y :: q) : first h l = y := by
  cases l with
  | nil => exact (List.cons.inj hq).1
  | cons _ _ => exact (List.cons.inj hq).1

theorem Moving.link (hI : Moving N m L p h h' l' done (x :: rest) m') (hne : h ≠ h') :
    x ≠ h ∧ next m' x = first h rest := by
  have hnodup := hI.lists.nodup h _ (moving_head hne)
  have hring := hI.lists.ring h _ (moving_head hne)
  obtain ⟨y, q, hq, _⟩ := exists_after h rest
  refine ⟨fun e => (List.nodup_cons.1 hnodup).1 (e ▸ by simp), ?_⟩
  rw [next_entry hring hq, first_eq hq]

theorem Moving.step (hI : Moving N m L p h h' l' done (x :: rest) m') (hN : NodesApart N)
    (hne : h ≠ h') : Moving N m L p h h' l' (done ++ [x]) rest (Cllist.moveSome p h' m' x) := by
  obtain ⟨h1, h2⟩ := hI.lists.moveSome hN (p := p) hne (moving_head hne) (Function.update_self _ _ _)
  refine ⟨hI.touches.trans h2, ?_⟩
  have hkept : ((done ++ [x]).filter fun x => !p x) =
      if p x then done.filter (fun x => !p x) else done.filter (fun x => !p x) ++ [x] := by
    rw [List.filter_append, List.filter_singleton]
    cases p x <;> simp
  have hmoved : l' ++ (done ++ [x]).filter p =
      if p x then l' ++ done.filter p ++ [x] else l' ++ done.filter p := by
    rw [List.filter_append, List.filter_singleton]
    cases p x <;> simp
  rw [update_pair hne] at h1
  rw [hkept, hmoved]
  exact h1

/-- **Moving while looping.** `list_for_each_safe` gives its body every element once and in order
although the body takes elements out: those that pass the test are behind the elements of the other
list, the others are left, both in the order they had. -/
theorem for_each_safe_moves (hN : NodesApart N) (hL : Lists N m L) (hne : h ≠ h')
    (hh : L h = some l) (hh' : L h' = some l') (p : ℕ → Bool) (fuel : ℕ) (hfuel : l.length < fuel) :
    ∃ m', listForEachSafe id (Cllist.moveSome p h') fuel h m = some m' ∧
      listForEachSafe Prod.fst (moveVisited p h') fuel h (m, []) = some (m', l) ∧ l.Nodup ∧
      Touches N m m' ∧
      Lists N m' (Function.update (Function.update L h (some (l.filter fun x => !p x))) h'
        (some (l' ++ l.filter p))) := by
  have hself : Function.update L h (some l) = L := Function.update_eq_self_iff.2 hh.symm
  have hself' : Function.update L h' (some l') = L := Function.update_eq_self_iff.2 hh'.symm
  have hstart : Moving N m L p h h' l' [] l m := by
    refine ⟨fun _ _ => rfl, ?_⟩
    rw [List.filter_nil, List.nil_append, List.filter_nil, List.append_nil, hself, hself']
    exact hL
  -- the invariant of the loop that records: what is written down is what has been visited
  obtain ⟨⟨m', vs⟩, hm', hI, hvs⟩ : ∃ s', forEachSafeFrom Prod.fst (moveVisited p h') h fuel (m, [])
      (first h l) (next m (first h l)) = some s' ∧
        (Moving N m L p h h' l' ([] ++ l) [] s'.1 ∧ s'.2 = [] ++ l) :=
    forEachSafeFrom_inv (I := fun done rest (s : Mem × List ℕ) =>
        Moving N m L p h h' l' done rest s.1 ∧ s.2 = done)
      (fun _ _ _ _ hI => hI.1.link hne)
      (fun _ _ _ _ hI => ⟨hI.1.step hN hne, congrArg (· ++ [_]) hI.2⟩) ⟨hstart, rfl⟩ hfuel
      fun _ => rfl
  have hvisited : vs = l := hvs
  rw [hvisited] at hm'
  obtain ⟨y, q, hq, _⟩ := exists_after h l
  have hfirst : next m h = first h l := by
    rw [next_head (hL.ring h l hh) hq, first_eq hq]
  have hrecorded : listForEachSafe Prod.fst (moveVisited p h') fuel h (m, []) = some (m', l) := by
    unfold listForEachSafe
    dsimp only
    rw [hfirst]
    exact hm'
  have hplain : listForEachSafe id (Cllist.moveSome p h') fuel h m = some m' := by
    have hmap : listForEachSafe id (Cllist.moveSome p h') fuel h m =
        (listForEachSafe Prod.fst (moveVisited p h') fuel h (m, [])).map Prod.fst :=
      forEachSafeFrom_map Prod.fst (fun _ => rfl) (fun _ _ => rfl) fuel (m, []) _ _
    rw [hmap, hrecorded, Option.map_some]
  have hlists := hI.lists
  rw [List.nil_append, List.append_nil] at hlists
  exact ⟨m', hplain, hrecorded, (List.nodup_cons.1 (hL.nodup h l hh)).2, hI.touches, hlists⟩

end

/-- The element at 64 moves. -/
theorem for_each_safe_moves_sample : ∃ m L m', Lists sampleNodes m L ∧
    listForEachSafe id (moveSome (· == 64) 48) 3 16 m = some m' ∧
    listForEachSafe Prod.fst (moveVisited (· == 64) 48) 3 16 (m, []) = some (m', [32, 64]) ∧
    Lists sampleNodes m' (Function.update (Function.update L 16 (some [32])) 48 (some [64])) := by
  obtain ⟨s, hrun, h16, h48⟩ := exists_sample
  have hL := (run_lists sampleNodes_apart hrun).1
  obtain ⟨m', hm', hv, _, _, hL'⟩ := for_each_safe_moves sampleNodes_apart hL (by decide) h16 h48
    (· == 64) 3 (by decide)
  exact ⟨s.1, s.2, m', hL, hm', hv, hL'⟩

end

end Cllist

end Ospp
