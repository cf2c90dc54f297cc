import Ospp.Klib.BitmapRange
import Ospp.Klib.StaticArrayRuns
import Ospp.Sys.LinkerRestore

/-!
# Regions are given back

Giving back the regions of a live layout never stops the kernel: its pages are mapped to frames that
are in use, or not mapped, and its units are marked in the bitmap (`exists_unloadRegions`). As long
as a layout is live, the table has a slot for the destructor to find (`exists_live`).
-/

namespace Ospp

/-! ## Unmapping returns -/

namespace Mm

section

variable {s : Mm} {res ext own : ℕ → Prop}

/-- Each round of the loop keeps the account, so the next one returns as well. -/
theorem Owned.exists_unmapRun {v : ℕ} : ∀ {n i : ℕ} {s : Mm}, Owned s res ext own →
    v + i + n ≤ 1047552 → (∀ u, v + i ≤ u → u < v + i + n → own u) →
    ∃ s', Mm.unmapRun (v * 4096) n i s = .ok s' := by
  intro n
  induction n with
  | zero => intro i s _ _ _; exact ⟨s, rfl⟩
  | succ n ih =>
    intro i s h hv hown
    have hfirst := hown (v + i) (by omega) (by omega)
    obtain ⟨s₁, h₁⟩ := h.exists_unmapPage hfirst
    obtain ⟨ho, _⟩ := h.unmapOwned hfirst h₁
    obtain ⟨s', h'⟩ := ih (i := i + 1) ho (by omega) fun u h1 h2 => hown u (by omega) (by omega)
    refine ⟨s', ?_⟩
    rw [Mm.unmapRun, K.bind_eq_ok, runAddr (by omega)]
    exact ⟨s₁, h₁, h'⟩

theorem Owned.exists_unmapPages (h : Owned s res ext own) {v pages : ℕ} (hv : v + pages ≤ 1047552)
    (hown : ∀ u, v ≤ u → u < v + pages → own u) :
    ∃ s', s.unmapPages (v * 4096) pages = .ok s' := by
  by_cases h0 : pages = 0
  · rw [h0]
    exact ⟨s, rfl⟩
  unfold Mm.unmapPages
  rw [pageBase_eq (by omega), Nat.mul_div_cancel _ (by norm_num)]
  exact h.exists_unmapRun (i := 0) (by omega) fun u h1 h2 => hown u (by omega) (by omega)

end

end Mm

namespace ModuleSpace

variable {m : ModuleSpace} {res ext own : ℕ → Prop} {rs : List PageRun}

/-- `free_units` on units that are all marked. -/
theorem exists_lmm_free {b : Bitmap} {i pages : ℕ} (hi : i + pages ≤ moduleSpacePageCount)
    (hbits : ∀ k, i ≤ k → k < i + pages → b.testBit k = true) :
    ∃ b', b.freeUnits lmmSpec ((modulePage + i) * 4096) pages = .ok b' := by
  unfold moduleSpacePageCount at hi
  have hoff : (modulePage + i) * 4096 - lmmSpec.baseAddr = i * 4096 := by
    show (40960 + i) * 4096 - 167772160 = i * 4096
    omega
  have hunit : ((modulePage + i) * 4096 - lmmSpec.baseAddr) / lmmSpec.unitSize = i := by
    rw [hoff]
    exact Nat.mul_div_cancel _ (show 0 < 4096 by norm_num)
  refine Bitmap.exists_freeUnits (by decide) ?_ ?_ ?_ ?_
  · show 167772160 ≤ (40960 + i) * 4096
    omega
  · rw [hoff]
    exact Nat.mul_mod_left _ _
  · rw [hunit]
    exact hi
  · rw [hunit]
    exact fun j hj => hbits _ (by omega) (by omega)

/-- A region in use can be given back. -/
theorem Inv.exists_unmapRegion (h : m.Inv res ext own rs) {r : PageRun} (hr : r ∈ rs) :
    ∃ m', m.unmapRegion r.base r.pages = .ok m' := by
  obtain ⟨_, hfit⟩ := h.fits r hr
  have hpage : modulePage + r.unit + r.pages ≤ 1047552 := by
    unfold moduleSpacePageCount at hfit
    unfold modulePage
    omega
  obtain ⟨mm, hmm⟩ := h.owned.exists_unmapPages (v := modulePage + r.unit) hpage
    fun u h1 h2 => Or.inr ⟨r, hr, h1, h2⟩
  obtain ⟨lmm, hl⟩ := exists_lmm_free (b := m.lmm) hfit
    fun k h1 h2 => (h.bits k (by omega)).2 ⟨r, hr, h1, h2⟩
  exact ⟨⟨lmm, mm⟩, K.bind_eq_ok.2 ⟨mm, hmm, K.bind_eq_ok.2 ⟨lmm, hl, rfl⟩⟩⟩

end ModuleSpace

/-! ## Counts -/

namespace StaticArray

variable {α : Type} {N : ℕ} {t t' : StaticArray α N}

theorem Counted.emplace (h : t.Counted) {x : α} {i : ℕ} (he : t.emplace x = .ok (t', i)) :
    t'.Counted := by
  have hfree := findFreeSlot_of_emplace he
  obtain ⟨hi, hocc, _⟩ := findFreeSlot_eq_some.1 hfree
  unfold StaticArray.emplace at he
  rw [hfree] at he
  cases he
  exact h.insert hi hocc x

theorem Counted.erase (h : t.Counted) (i : ℕ) : (t.erase i).Counted := by
  unfold StaticArray.erase
  by_cases hocc : t.occupied i = true
  · rw [if_pos hocc]
    obtain ⟨x, hx⟩ := occupied_iff.1 hocc
    exact h.remove (ptr_lt hx) hocc
  · rw [if_neg hocc]
    exact h

theorem Counted.modify (h : t.Counted) (i : ℕ) (f : α → α) : (t.modify i f).Counted := by
  have hocc : (t.modify i f).occupied = t.occupied := by
    funext j
    unfold occupied
    rw [ptr_modify]
    split_ifs
    · exact Option.isSome_map
    · rfl
  unfold Counted occupiedSlots at h ⊢
  rw [hocc]
  exact h

theorem Counted.le (h : t.Counted) : t.liveCount ≤ N := by
  unfold Counted occupiedSlots at h
  rw [h]
  exact (List.length_filter_le _ _).trans_eq List.length_range

/-- Erasing an object leaves one less. -/
theorem liveCount_erase {i : ℕ} (hocc : t.occupied i = true) :
    (t.erase i).liveCount = t.liveCount - 1 := by
  unfold StaticArray.erase
  rw [if_pos hocc]

end StaticArray

namespace Linker

open Trans

/-! ## Unloading returns -/

section

variable {res ext own : ℕ → Prop} {s₀ s s' : Linker} {m : ModuleSpace} {rs : List PageRun}
  {L : Layout}

theorem exists_unloadRegionLocked {reg : Region} (h : m.Inv res ext own (reg.runs ++ rs))
    (hok : reg.Ok) : ∃ m', unloadRegionLocked m reg = .ok m' := by
  unfold unloadRegionLocked
  by_cases hz : reg.base = 0 ∨ reg.size = 0
  · rw [if_pos hz]
    exact ⟨m, rfl⟩
  · rw [if_neg hz]
    obtain ⟨hlo, hal, _⟩ := (hok.resolve_left fun hb => hz (Or.inl hb)).resolve_left
      fun hs => hz (Or.inr hs)
    have hmem : (⟨(reg.base - moduleSpaceBase) / pageSize, reg.size / pageSize⟩ : PageRun) ∈
        reg.runs ++ rs :=
      List.mem_append_left _ (by unfold Region.runs; rw [if_neg hz]; exact List.mem_singleton_self _)
    obtain ⟨m', hm'⟩ := h.exists_unmapRegion hmem
    refine ⟨m', ?_⟩
    rw [← hm']
    congr 1
    unfold PageRun.base modulePage moduleSpaceBase pageSize
    unfold moduleSpaceBase at hlo
    dsimp only
    omega

theorem exists_unloadRegions (h : m.Inv res ext own (L.runs ++ rs)) (hok : L.Ok) :
    ∃ m', unloadRegions m L = .ok m' := by
  unfold Layout.runs at h
  rw [List.append_assoc] at h
  obtain ⟨m₁, h₁⟩ := exists_unloadRegionLocked h hok.1
  obtain ⟨m', h'⟩ := exists_unloadRegionLocked (unloadRegionLocked_spec h hok.1 h₁).1 hok.2
  exact ⟨m', K.bind_eq_ok.2 ⟨m₁, h₁, h'⟩⟩

/-! ## The table of layouts -/

/-- What `load` does to the table: the new layout goes into the lowest free slot, which is freed again
if the load fails. -/
structure Slotted (t t' : StaticArray Layout 64) (r : Option ℕ) : Prop where
  counted : t.Counted → t'.Counted
  lowest : ∀ i, r = some i → t.findFreeSlot = some i

/-- A table that is not empty has a live layout for the inner loop to find. -/
theorem exists_live {t : StaticArray Layout 64} (hc : t.Counted) (hne : t.isEmpty = false) :
    ∃ i L, (List.range 64).find? t.occupied = some i ∧ t.ptr i = some L ∧ 0 < t.liveCount := by
  have hpos : 0 < t.liveCount := by
    unfold StaticArray.isEmpty at hne
    have : t.liveCount ≠ 0 := by simpa using hne
    omega
  cases hf : (List.range 64).find? t.occupied with
  | none =>
    have hnil : t.occupiedSlots = [] := by
      unfold StaticArray.occupiedSlots
      rw [List.filter_eq_nil_iff]
      exact List.find?_eq_none.1 hf
    unfold StaticArray.Counted at hc
    rw [hnil, List.length_nil] at hc
    omega
  | some i =>
    obtain ⟨L, hL⟩ := StaticArray.occupied_iff.1 (List.find?_some hf)
    exact ⟨i, L, rfl, hL, hpos⟩

end

end Linker

end Ospp
