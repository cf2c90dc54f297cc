import Mathlib.Data.Finset.Lattice.Fold
import Mathlib.Data.Finset.Dedup

/-!
# Anonymous acknowledgments

A priority controller keeps the set of the requests it has handed over and not yet seen
acknowledged. It hands over a request only if its level is above those of all the requests in
service, and an acknowledgment, which names no request, ends the highest one.

`Serves level l S`: the requests `l` being served, innermost first, are those in service, with
rising levels. A party that serves requests last in, first out, with one acknowledgment at the end
of each, ends the one it served (`Serves.accept`, `Serves.ack`).
-/

namespace InService

variable {ι κ : Type*} [LinearOrder ι] [LinearOrder κ] {level : ι → κ} {l : List ι} {S : Finset ι}
  {v : ι}

/-- The request may be handed over. -/
def Accepts (level : ι → κ) (S : Finset ι) (v : ι) : Prop := ∀ u ∈ S, level u < level v

instance (level : ι → κ) (S : Finset ι) (v : ι) : Decidable (Accepts level S v) :=
  inferInstanceAs (Decidable (∀ u ∈ S, level u < level v))

/-- The requests being served, innermost first, are those in service. -/
structure Serves (level : ι → κ) (l : List ι) (S : Finset ι) : Prop where
  eq : S = l.toFinset
  rising : l.Pairwise fun a b => level b < level a

namespace Serves

theorem nil : Serves level ([] : List ι) ∅ := ⟨rfl, .nil⟩

theorem accept (h : Serves level l S) (ha : Accepts level S v) :
    Serves level (v :: l) (insert v S) := by
  refine ⟨?_, List.pairwise_cons.2 ⟨fun u hu => ha u ?_, h.rising⟩⟩
  · rw [List.toFinset_cons, h.eq]
  · rw [h.eq]
    exact List.mem_toFinset.2 hu

/-- No request is handed over again while one of its level is being served. -/
theorem nodup (h : Serves level l S) : (l.map level).Nodup :=
  List.pairwise_map.2 (h.rising.imp fun hlt => hlt.ne')

end Serves

variable [OrderBot ι]

/-- An acknowledgment: the highest request is no longer in service. -/
def ack (S : Finset ι) : Finset ι := S.erase (S.sup id)

@[simp] theorem ack_empty : ack (∅ : Finset ι) = ∅ := rfl

theorem sup_mem (h : S.Nonempty) : S.sup id ∈ S := by
  obtain ⟨v, hv, he⟩ := S.exists_mem_eq_sup h id
  rw [he]
  exact hv

/-- With a request in service an acknowledgment ends one. -/
theorem ack_ne (h : S.Nonempty) : ack S ≠ S := Finset.erase_ne_self.2 (sup_mem h)

/-- The request that was accepted last is the one an acknowledgment ends. -/
theorem ack_insert (h : ∀ u ∈ S, u < v) : ack (insert v S) = S := by
  have hsup : (insert v S).sup id = v := by
    rw [Finset.sup_insert]
    exact sup_eq_left.2 (Finset.sup_le fun u hu => (h u hu).le)
  unfold ack
  rw [hsup]
  exact Finset.erase_insert fun hv => lt_irrefl v (h v hv)

theorem Serves.ack (hlevel : Monotone level) (h : Serves level (v :: l) S) :
    Serves level l (InService.ack S) := by
  obtain ⟨hv, hl⟩ := List.pairwise_cons.1 h.rising
  refine ⟨?_, hl⟩
  rw [h.eq, List.toFinset_cons]
  apply ack_insert
  intro u hu
  exact hlevel.reflect_lt (hv u (List.mem_toFinset.1 hu))

end InService
