import Mathlib.Tactic
import Mathlib.Data.List.Chain

/-!
# Cyclic order on the numbers below a bound

The numbers below `N`, walked through cyclically. `after N c i` is the place of `i` in the walk that
starts behind `c`: the number after `c` has place `0`, and `c` itself comes last.

A walk that jumps ahead without ever passing `t` comes nearer to `t` with every jump, so it does not
visit a number twice (`nodup_of_approach`).
-/

namespace Cyclic

/-- The place of `i` in the walk behind `c`. -/
def after (N c i : ℕ) : ℕ := if c < i then i - c - 1 else i + N - c - 1

variable {N c i k t : ℕ}

theorem after_lt (hc : c < N) (hi : i < N) : after N c i < N := by
  unfold after; split_ifs <;> omega

/-- The number at place `d`. -/
theorem add_after (hc : c < N) (hi : i < N) : (c + (after N c i + 1)) % N = i := by
  unfold after
  split_ifs with h
  · rw [show c + (i - c - 1 + 1) = i by omega, Nat.mod_eq_of_lt hi]
  · rw [show c + (i + N - c - 1 + 1) = i + N by omega, Nat.add_mod_right, Nat.mod_eq_of_lt hi]

theorem after_add {d : ℕ} (hc : c < N) (hd : 0 < d) (hdN : d ≤ N) :
    after N c ((c + d) % N) + 1 = d := by
  unfold after
  by_cases h : c + d < N
  · rw [Nat.mod_eq_of_lt h]
    split_ifs <;> omega
  · rw [Nat.mod_eq_sub_mod (by omega), Nat.mod_eq_of_lt (by omega)]
    split_ifs <;> omega

theorem after_inj (hc : c < N) (hi : i < N) (hk : k < N) (h : after N c i = after N c k) : i = k := by
  rw [← add_after hc hi, h, add_after hc hk]

/-- A jump to `k`, short of `t`, leads nearer to `t`. -/
theorem after_lt_of_lt (hc : c < N) (ht : t < N) (h : after N c k < after N c t) :
    after N k t < after N c t := by
  unfold after at h ⊢
  split_ifs at h ⊢ <;> omega

/-- A walk of jumps short of `t`. -/
theorem nodup_of_approach (ht : t < N) : ∀ {l : List ℕ} {c : ℕ}, (∀ x ∈ c :: l, x < N) →
    List.IsChain (fun c k => after N c k < after N c t) (c :: l) → l.Nodup := by
  have hdec : ∀ {l : List ℕ} {c : ℕ}, (∀ x ∈ c :: l, x < N) →
      List.IsChain (fun c k => after N c k < after N c t) (c :: l) →
        ∀ x ∈ l, after N x t < after N c t := by
    intro l
    induction l with
    | nil => intro c _ _ x hx; cases hx
    | cons k l ih =>
      intro c hlt hch x hx
      obtain ⟨hk, hch⟩ := List.isChain_cons_cons.1 hch
      have hstep := after_lt_of_lt (hlt c List.mem_cons_self) ht hk
      rcases List.mem_cons.1 hx with rfl | hx
      · exact hstep
      · exact (ih (fun y hy => hlt y (List.mem_cons_of_mem _ hy)) hch x hx).trans hstep
  intro l
  induction l with
  | nil => intro c _ _; exact List.nodup_nil
  | cons k l ih =>
    intro c hlt hch
    have hch' := (List.isChain_cons_cons.1 hch).2
    have hlt' : ∀ x ∈ k :: l, x < N := fun y hy => hlt y (List.mem_cons_of_mem _ hy)
    refine List.nodup_cons.2 ⟨fun hk => ?_, ih hlt' hch'⟩
    exact lt_irrefl _ (hdec hlt' hch' k hk)

/-- Such a walk does not come to `t`. -/
theorem notMem_of_approach : ∀ {l : List ℕ} {c : ℕ},
    List.IsChain (fun c k => after N c k < after N c t) (c :: l) → t ∉ l := by
  intro l
  induction l with
  | nil => intro c _ h; cases h
  | cons k l ih =>
    intro c hch hmem
    obtain ⟨hk, hch⟩ := List.isChain_cons_cons.1 hch
    rcases List.mem_cons.1 hmem with rfl | hmem
    · exact lt_irrefl _ hk
    · exact ih hch hmem

end Cyclic
