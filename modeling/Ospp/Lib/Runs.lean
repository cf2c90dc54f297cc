import Mathlib.Tactic.Common

/-!
# Maximal runs

The positions below `n` at which `P` holds, cut into runs: stretches as long as they can be
(`IsRun`). `RunsFrom P n k L` says that `L` lists the runs from position `k` on, in order, with a
gap between any two. A scan that skips a gap and then a run finds the head of the list
(`RunsFrom.cons`).
-/

/-- `P` holds at the `l` positions from `o` on, and this cannot be extended. -/
structure IsRun (P : ℕ → Prop) (n o l : ℕ) : Prop where
  pos : 0 < l
  le : o + l ≤ n
  all : ∀ i, o ≤ i → i < o + l → P i
  left : o = 0 ∨ ¬ P (o - 1)
  right : o + l = n ∨ ¬ P (o + l)

/-- The runs from `k` on, as start and length. -/
structure RunsFrom (P : ℕ → Prop) (n k : ℕ) (L : List (ℕ × ℕ)) : Prop where
  ordered : L.Pairwise fun x y => x.1 + x.2 < y.1
  mem_iff : ∀ o l, (o, l) ∈ L ↔ k ≤ o ∧ IsRun P n o l

section Runs

variable {P : ℕ → Prop} {n k a b : ℕ} {L : List (ℕ × ℕ)}

/-- Behind a gap, a run starts where it can, and every other one starts behind it. -/
theorem isRun_iff (hk : k = 0 ∨ ¬ P (k - 1)) (hka : k ≤ a) (hskip : ∀ i, k ≤ i → i < a → ¬ P i)
    (hab : a < b) (hbn : b ≤ n) (hall : ∀ i, a ≤ i → i < b → P i) (hend : b = n ∨ ¬ P b) (o l : ℕ) :
    k ≤ o ∧ IsRun P n o l ↔ (o = a ∧ l = b - a) ∨ (b + 1 ≤ o ∧ IsRun P n o l) := by
  constructor
  · rintro ⟨hko, h⟩
    have hoP : P o := h.all o (Nat.le_refl o) (Nat.lt_add_of_pos_right h.pos)
    rcases Nat.lt_or_ge b o with hbo | hob
    · exact .inr ⟨hbo, h⟩
    have hon : o < n := Nat.lt_of_lt_of_le (Nat.lt_add_of_pos_right h.pos) h.le
    have hao : a ≤ o := Nat.le_of_not_lt fun hoa => hskip o hko hoa hoP
    have hob' : o ≠ b := by
      rintro rfl
      exact hend.elim (fun hn => absurd hon (by omega)) fun hP => hP hoP
    have hoa : o = a := by
      by_contra hne
      rcases h.left with hzero | hprev
      · omega
      · exact hprev (hall (o - 1) (by omega) (by omega))
    refine .inl ⟨hoa, ?_⟩
    subst hoa
    by_contra hne
    rcases Nat.lt_or_ge (o + l) b with hshort | hlong
    · rcases h.right with hn | hstop
      · omega
      · exact hstop (hall (o + l) (by omega) hshort)
    · rcases hend with hn | hstop
      · have := h.le
        omega
      · exact hstop (h.all b (by omega) (by omega))
  · rintro (⟨rfl, rfl⟩ | ⟨hbo, h⟩)
    · have hsum : o + (b - o) = b := by omega
      refine ⟨hka, by omega, by omega, fun i hi hlt => hall i hi (by omega), ?_, by rwa [hsum]⟩
      rcases Nat.eq_or_lt_of_le hka with rfl | hlt
      · exact hk
      · exact .inr (hskip (o - 1) (by omega) (by omega))
    · exact ⟨by omega, h⟩

/-- Nothing but a gap. -/
theorem runsFrom_nil (h : ∀ i, k ≤ i → i < n → ¬ P i) : RunsFrom P n k [] where
  ordered := List.Pairwise.nil
  mem_iff o l := by
    refine ⟨fun hmem => absurd hmem List.not_mem_nil, fun ⟨hko, hrun⟩ => ?_⟩
    have hle := hrun.le
    have hpos := hrun.pos
    exact absurd (hrun.all o (Nat.le_refl o) (by omega)) (h o hko (by omega))

/-- A gap, a run, and what follows. -/
theorem RunsFrom.cons (hk : k = 0 ∨ ¬ P (k - 1)) (hka : k ≤ a)
    (hskip : ∀ i, k ≤ i → i < a → ¬ P i) (hab : a < b) (hbn : b ≤ n)
    (hall : ∀ i, a ≤ i → i < b → P i) (hend : b = n ∨ ¬ P b) (h : RunsFrom P n (b + 1) L) :
    RunsFrom P n k ((a, b - a) :: L) where
  ordered := by
    refine List.Pairwise.cons (fun x hx => ?_) h.ordered
    have hstart := ((h.mem_iff x.1 x.2).1 hx).1
    dsimp only
    omega
  mem_iff o l := by
    rw [List.mem_cons, h.mem_iff, isRun_iff hk hka hskip hab hbn hall hend, Prod.mk.injEq]

/-- There are no more runs than positions. -/
theorem RunsFrom.length_le (h : RunsFrom P n k L) (hkn : k ≤ n) : L.length + k ≤ n := by
  suffices hlen : ∀ k, (∀ x ∈ L, k ≤ x.1 ∧ 0 < x.2 ∧ x.1 + x.2 ≤ n) → k ≤ n →
      L.length + k ≤ n from hlen k (fun x hx => by
    obtain ⟨hkx, hrun⟩ := (h.mem_iff x.1 x.2).1 hx
    exact ⟨hkx, hrun.pos, hrun.le⟩) hkn
  have hord := h.ordered
  clear h hkn
  induction L with
  | nil => exact fun k _ hkn => by simpa using hkn
  | cons x L ih =>
    intro k hbound hkn
    obtain ⟨hkx, hpos, hle⟩ := hbound x List.mem_cons_self
    obtain ⟨hfirst, hrest⟩ := List.pairwise_cons.1 hord
    have hlen := ih hrest (k + 1) (fun y hy => ?_) (by omega)
    · rw [List.length_cons]
      omega
    · have hxy := hfirst y hy
      obtain ⟨-, hposy, hley⟩ := hbound y (List.mem_cons_of_mem x hy)
      exact ⟨by omega, hposy, hley⟩

end Runs
