import Ospp.Mm.PageTables

/-!
# Frames and their owners

`Owned s res ext own` accounts for every frame that is in use. The pages `own` hold their frames
exclusively: the frame of such a page is in no other such page and is no page table. The frames
`ext` are in use for something else; among them `res` are never given back. Everything else that is
in use is the directory or a page table. Pages that are not `own` are mapped to `res` frames only,
the identity window apart.

Each operation of the two managers keeps the account, with the sets moved accordingly; the loops of
`map_pages` and `unmap_pages` follow by induction.
-/

namespace Ospp

namespace Mm

/-- The number of pages in the bootstrap identity window. -/
def identityPages : ℕ := 1024

structure Owned (s : Mm) (res ext own : ℕ → Prop) : Prop where
  wf : s.WF
  res_ext : ∀ k, res k → ext k
  ext_used : ∀ k, ext k → s.pmm.used k = true
  ext_ne_dir : ∀ k, ext k → k ≠ s.vmm.dir
  ext_ne_table : ∀ k, ext k → ∀ j < 1023, s.table j ≠ some k
  own_high : ∀ v, own v → identityPages ≤ v ∧ v / 1024 < 1023
  own_used : ∀ v f, own v → s.mapped v = some f →
    s.pmm.used f = true ∧ ¬ ext f ∧ f ≠ s.vmm.dir ∧ ∀ j < 1023, s.table j ≠ some f
  own_inj : ∀ u v f, own u → own v → s.mapped u = some f → s.mapped v = some f → u = v
  foreign : ∀ v f, v / 1024 < 1023 → identityPages ≤ v → ¬ own v → s.mapped v = some f → res f
  exact : ∀ k, s.pmm.used k = true → ext k ∨ k = s.vmm.dir ∨ (∃ j < 1023, s.table j = some k) ∨
    ∃ v, own v ∧ s.mapped v = some k

section

variable {s s' : Mm} {res ext own : ℕ → Prop}

/-- The frame of a mapping made with the `Present` flag. -/
theorem mapped_make {v f flags : ℕ} (hf : f < maxFrames) (hflags : flags % 2 = 1)
    (h : s.pte v = Entry.make (pageBase (f * 4096)) flags) : s.mapped v = some f := by
  unfold maxFrames at hf
  unfold mapped
  rw [h, Entry.present_make, if_pos (by simpa using hflags), Entry.frame_make,
    pageBase_eq (by omega)]
  congr 1
  omega

theorem mapped_congr {v : ℕ} (h : s'.pte v = s.pte v) : s'.mapped v = s.mapped v := by
  unfold mapped; rw [h]

theorem mapped_zero {v : ℕ} (h : s.pte v = 0) : s.mapped v = none := by
  unfold mapped; rw [h, Entry.present_zero]; rfl

/-! ## Page tables -/

/-- The directory stays where it is, and so do the page tables there are. -/
def KeepsTables (s s' : Mm) : Prop :=
  s'.vmm.dir = s.vmm.dir ∧ ∀ j < 1023, ∀ t, s.table j = some t → s'.table j = some t

theorem KeepsTables.refl (s : Mm) : KeepsTables s s := ⟨rfl, fun _ _ _ ht => ht⟩

theorem KeepsTables.trans {s s₁ s' : Mm} (h : KeepsTables s s₁) (h' : KeepsTables s₁ s') :
    KeepsTables s s' :=
  ⟨h'.1.trans h.1, fun j hj t ht => h'.2 j hj t (h.2 j hj t ht)⟩

theorem TableStep.used_mono {i k : ℕ} (h : TableStep s s' i) (hk : s.pmm.used k = true) :
    s'.pmm.used k = true := by
  cases h with
  | same hused _ => rw [hused, hk]
  | fresh t _ _ hused _ _ => rw [hused, hk, Bool.true_or]

theorem TableStep.table_mono {i j t : ℕ} (h : TableStep s s' i) (hj : j < 1023)
    (ht : s.table j = some t) : s'.table j = some t := by
  cases h with
  | same _ htable => rw [htable j hj, ht]
  | fresh t' _ _ _ hnone htable =>
    rw [htable j hj, if_neg, ht]
    rintro rfl
    rw [hnone] at ht
    cases ht

/-- A frame in use does not become a page table. -/
theorem TableStep.ne_table {i k : ℕ} (h : TableStep s s' i) (hk : s.pmm.used k = true)
    (hnt : ∀ j < 1023, s.table j ≠ some k) : ∀ j < 1023, s'.table j ≠ some k := by
  intro j hj
  cases h with
  | same _ htable => rw [htable j hj]; exact hnt j hj
  | fresh t _ hfree _ _ htable =>
    rw [htable j hj]
    split_ifs
    · intro e
      rw [Option.some.inj e, hk] at hfree
      cases hfree
    · exact hnt j hj

/-- A frame that comes into use is a page table. -/
theorem TableStep.used_cases {i k : ℕ} (h : TableStep s s' i) (hi : i < 1023)
    (hk : s'.pmm.used k = true) : s.pmm.used k = true ∨ ∃ j < 1023, s'.table j = some k := by
  cases h with
  | same hused _ => rw [hused] at hk; exact Or.inl hk
  | fresh t _ _ hused _ htable =>
    rw [hused, Bool.or_eq_true, decide_eq_true_eq] at hk
    rcases hk with hk | rfl
    · exact Or.inl hk
    · exact Or.inr ⟨i, hi, by rw [htable i hi, if_pos rfl]⟩

/-! ## Contents -/

/-- `ensure_page_table` writes the directory, and a frame that was free. -/
theorem phys_ensurePageTable (hwf : s.WF) {a flags g : ℕ} (ha : a < 4294967296)
    (hv : a / 4096 / 1024 < 1023) (h : s.ensurePageTable (pageBase a) flags = .ok s')
    (hg : s.pmm.used g = true) (hdir : g ≠ s.vmm.dir) : s'.vmm.phys g = s.vmm.phys g := by
  have hset : ∀ w k, (s.vmm.set s.vmm.dir (a / 4096 / 1024) w).phys g k = s.vmm.phys g k :=
    fun w k => if_neg fun e => hdir e.1
  funext k
  rcases ensurePageTable_cases hwf ha hv h with
    ⟨_, rfl⟩ | ⟨_, t, w, pmm, _, hfree, _, _, _, _, rfl⟩
  · exact hset _ k
  · have hgt : g ≠ t := by
      rintro rfl
      rw [hg] at hfree
      cases hfree
    exact (if_neg hgt).trans (hset w k)

/-- `map_page_locked` writes page tables besides. -/
theorem phys_mapPageLocked (hwf : s.WF) {a p flags g : ℕ} (ha : a < 4294967296)
    (hv : a / 4096 / 1024 < 1023) (h : s.mapPageLocked a p flags = .ok s')
    (hg : s.pmm.used g = true) (hdir : g ≠ s.vmm.dir) (htab : ∀ j < 1023, s.table j ≠ some g) :
    s'.vmm.phys g = s.vmm.phys g := by
  obtain ⟨s₁, t, h₁, ht, rfl⟩ := mapPageLocked_cases hwf ha hv h
  obtain ⟨_, _, hstep, _, _⟩ := ensurePageTable_spec hwf ha hv h₁
  have hgt : g ≠ t := by
    rintro rfl
    exact hstep.ne_table hg htab _ hv ht
  rw [← phys_ensurePageTable hwf ha hv h₁ hg hdir]
  funext k
  exact if_neg fun e => hgt e.1

/-- The frame holds the directory or a page table. -/
def IsTable (s : Mm) (k : ℕ) : Prop := k = s.vmm.dir ∨ ∃ j < 1023, s.table j = some k

/-- Mapping a page: the account after `map_page_locked` for any sets `ext'` and `own'` that the new
entry of page `v` justifies. -/
theorem Owned.map (h : Owned s res ext own) {ext' own' : ℕ → Prop} {v : ℕ} {f' : Option ℕ}
    (hwf : s'.WF) (hdir : s'.vmm.dir = s.vmm.dir) (hv : v / 1024 < 1023)
    (hstep : TableStep s s' (v / 1024)) (hnew : s'.mapped v = f')
    (hkeep : ∀ u, u / 1024 < 1023 → u ≠ v → s'.mapped u = s.mapped u) (hown : ¬ own v)
    (hsub : ∀ k, ext' k → ext k) (hres : ∀ k, res k → ext' k)
    (hown' : ∀ u, u ≠ v → (own' u ↔ own u)) (hhigh : own' v → identityPages ≤ v)
    (hmoved : ∀ k, ext k → ¬ ext' k → own' v ∧ f' = some k)
    (htaken : own' v → ∀ k, f' = some k → ext k ∧ ¬ ext' k)
    (hother : ¬ own' v → identityPages ≤ v → ∀ k, f' = some k → res k) :
    Owned s' res ext' own' := by
  have hne : ∀ u, own u → u ≠ v := fun u hu e => hown (e ▸ hu)
  have hext : ∀ k, ext k → s'.pmm.used k = true ∧ k ≠ s'.vmm.dir ∧
      ∀ j < 1023, s'.table j ≠ some k := fun k hk =>
    ⟨hstep.used_mono (h.ext_used k hk), by rw [hdir]; exact h.ext_ne_dir k hk,
      hstep.ne_table (h.ext_used k hk) (h.ext_ne_table k hk)⟩
  refine ⟨hwf, hres, fun k hk => (hext k (hsub k hk)).1, fun k hk => (hext k (hsub k hk)).2.1,
    fun k hk => (hext k (hsub k hk)).2.2, fun u hu => ?_, fun u f hu hm => ?_,
    fun u w f hu hw h1 h2 => ?_, fun u f hu hid hnu hm => ?_, fun k hk => ?_⟩
  · by_cases huv : u = v
    · subst huv; exact ⟨hhigh hu, hv⟩
    · exact h.own_high u ((hown' u huv).1 hu)
  · by_cases huv : u = v
    · subst huv
      rw [hnew] at hm
      obtain ⟨h1, h2⟩ := htaken hu f hm
      exact ⟨(hext f h1).1, h2, (hext f h1).2⟩
    · have hou := (hown' u huv).1 hu
      rw [hkeep u (h.own_high u hou).2 huv] at hm
      obtain ⟨h1, h2, h3, h4⟩ := h.own_used u f hou hm
      exact ⟨hstep.used_mono h1, fun he => h2 (hsub f he), by rw [hdir]; exact h3,
        hstep.ne_table h1 h4⟩
  · -- an owned page keeps its frame, which is not among the frames moved to `v`
    have hdistinct : ∀ x, own' x → x ≠ v → s'.mapped x = some f → s'.mapped v = some f →
        own' v → False := by
      intro x hx hxv hmx hmv hov
      have hox := (hown' x hxv).1 hx
      rw [hkeep x (h.own_high x hox).2 hxv] at hmx
      rw [hnew] at hmv
      exact (h.own_used x f hox hmx).2.1 (htaken hov f hmv).1
    by_cases huv : u = v
    · by_cases hwv : w = v
      · rw [huv, hwv]
      · exact (hdistinct w hw hwv h2 (huv ▸ h1) (huv ▸ hu)).elim
    · by_cases hwv : w = v
      · exact (hdistinct u hu huv h1 (hwv ▸ h2) (hwv ▸ hw)).elim
      · have hou := (hown' u huv).1 hu
        have how := (hown' w hwv).1 hw
        rw [hkeep u (h.own_high u hou).2 huv] at h1
        rw [hkeep w (h.own_high w how).2 hwv] at h2
        exact h.own_inj u w f hou how h1 h2
  · by_cases huv : u = v
    · subst huv
      rw [hnew] at hm
      exact hother hnu hid f hm
    · rw [hkeep u hu huv] at hm
      exact h.foreign u f hu hid (fun ho => hnu ((hown' u huv).2 ho)) hm
  · rcases hstep.used_cases hv hk with hk' | ht
    · rcases h.exact k hk' with h1 | h1 | ⟨j, hj, h1⟩ | ⟨u, hu, h1⟩
      · by_cases hk1 : ext' k
        · exact Or.inl hk1
        · obtain ⟨hov, hf'⟩ := hmoved k h1 hk1
          exact Or.inr (Or.inr (Or.inr ⟨v, hov, by rw [hnew, hf']⟩))
      · exact Or.inr (Or.inl (by rw [hdir]; exact h1))
      · exact Or.inr (Or.inr (Or.inl ⟨j, hj, hstep.table_mono hj h1⟩))
      · refine Or.inr (Or.inr (Or.inr ⟨u, (hown' u (hne u hu)).2 hu, ?_⟩))
        rw [hkeep u (h.own_high u hu).2 (hne u hu), h1]
    · exact Or.inr (Or.inr (Or.inl ht))

/-- What `map_page_locked` does to the mappings. -/
theorem mapped_mapPageLocked (hwf : s.WF) {v f flags : ℕ} (hv : v / 1024 < 1023)
    (hf : f < maxFrames) (hflags : flags % 2 = 1)
    (hmap : s.mapPageLocked (v * 4096) (f * 4096) flags = .ok s') :
    s'.WF ∧ s'.vmm.dir = s.vmm.dir ∧ TableStep s s' (v / 1024) ∧ s'.mapped v = some f ∧
      ∀ u, u / 1024 < 1023 → u ≠ v → s'.mapped u = s.mapped u := by
  have hpage : v * 4096 / 4096 = v := Nat.mul_div_cancel _ (by norm_num)
  obtain ⟨hwf', hdir, hstep, hpte⟩ := mapPageLocked_spec hwf (by omega) (by rwa [hpage]) hmap
  rw [hpage] at hstep hpte
  refine ⟨hwf', hdir, hstep, mapped_make hf hflags (by rw [hpte v hv, if_pos rfl]),
    fun u hu huv => mapped_congr ?_⟩
  rw [hpte u hu, if_neg huv]

/-- A page outside `own` is mapped to a frame that is never given back (or lies in the identity
window). -/
theorem Owned.mapForeign (h : Owned s res ext own) {v f flags : ℕ} (hv : v / 1024 < 1023)
    (hf : f < maxFrames) (hflags : flags % 2 = 1) (hown : ¬ own v)
    (hres : v < identityPages ∨ res f)
    (hmap : s.mapPageLocked (v * 4096) (f * 4096) flags = .ok s') : Owned s' res ext own := by
  obtain ⟨hwf, hdir, hstep, hnew, hkeep⟩ := mapped_mapPageLocked h.wf hv hf hflags hmap
  refine h.map hwf hdir hv hstep hnew hkeep hown (fun _ hk => hk) h.res_ext (fun _ _ => Iff.rfl)
    (fun ho => absurd ho hown) (fun k hk hn => absurd hk hn) (fun ho => absurd ho hown) ?_
  intro _ hid k hk
  cases hk
  exact hres.resolve_left (by omega)

/-- A page takes over a frame that was in use for something else. -/
theorem Owned.mapOwned (h : Owned s res ext own) {v f flags : ℕ} (hv : v / 1024 < 1023)
    (hid : identityPages ≤ v) (hf : f < maxFrames) (hflags : flags % 2 = 1) (hown : ¬ own v)
    (hext : ext f) (hres : ¬ res f)
    (hmap : s.mapPageLocked (v * 4096) (f * 4096) flags = .ok s') :
    Owned s' res (fun k => ext k ∧ k ≠ f) (fun u => own u ∨ u = v) ∧ s'.mapped v = some f ∧
      (∀ u, u / 1024 < 1023 → u ≠ v → s'.mapped u = s.mapped u) ∧ KeepsTables s s' := by
  obtain ⟨hwf, hdir, hstep, hnew, hkeep⟩ := mapped_mapPageLocked h.wf hv hf hflags hmap
  refine ⟨h.map hwf hdir hv hstep hnew hkeep hown (fun _ hk => hk.1)
    (fun k hk => ⟨h.res_ext k hk, ?_⟩) (fun u hu => ?_) (fun _ => hid) (fun k hk hn => ?_)
    (fun _ k hk => ?_) (fun hn => absurd (Or.inr rfl) hn), hnew, hkeep, hdir,
    fun j hj t ht => hstep.table_mono hj ht⟩
  · rintro rfl; exact hres hk
  · exact ⟨fun ho => ho.resolve_right hu, Or.inl⟩
  · have : k = f := by
      by_contra hkf
      exact hn ⟨hk, hkf⟩
    exact ⟨Or.inr rfl, by rw [this]⟩
  · cases hk
    exact ⟨hext, fun hk => hk.2 rfl⟩

/-! ## Unmapping -/

/-- An owned page gives its frame back. -/
theorem Owned.unmapOwned (h : Owned s res ext own) {v : ℕ} (hown : own v)
    (hunmap : s.unmapPageLocked (v * 4096) = .ok s') :
    Owned s' res ext own ∧ s'.mapped v = none ∧
      (∀ u, u / 1024 < 1023 → u ≠ v → s'.mapped u = s.mapped u) ∧ KeepsTables s s' := by
  have hpage : v * 4096 / 4096 = v := Nat.mul_div_cancel _ (by norm_num)
  obtain ⟨hid, hv⟩ := h.own_high v hown
  rcases unmapPageLocked_spec h.wf (by omega) (by rwa [hpage])
      (fun f hf => by
        rw [hpage] at hf
        exact (h.own_used v f hown hf).2.2) hunmap with ⟨hnone, rfl⟩ | hrest
  · rw [hpage] at hnone
    exact ⟨h, hnone, fun u _ _ => rfl, .refl _⟩
  · obtain ⟨f, hf, hwf, hdir, htable, _, hused, hpte⟩ := hrest
    rw [hpage] at hf hpte
    have hgone : s'.mapped v = none := mapped_zero (by rw [hpte v hv, if_pos rfl])
    have hkeep : ∀ u, u / 1024 < 1023 → u ≠ v → s'.mapped u = s.mapped u := by
      intro u hu huv
      refine mapped_congr ?_
      rw [hpte u hu, if_neg huv]
    obtain ⟨_, hnext, hndir, hntab⟩ := h.own_used v f hown hf
    have hmono : ∀ k, k ≠ f → s.pmm.used k = true → s'.pmm.used k = true := by
      intro k hkf hk; rw [hused, hk, decide_eq_false hkf]; rfl
    -- a mapping that is still there is one of before, of another page
    have hback : ∀ u g, u / 1024 < 1023 → s'.mapped u = some g → u ≠ v ∧ s.mapped u = some g := by
      intro u g hu hm
      have huv : u ≠ v := by
        rintro rfl
        rw [hgone] at hm
        cases hm
      exact ⟨huv, by rw [← hkeep u hu huv, hm]⟩
    refine ⟨⟨hwf, h.res_ext, fun k hk => hmono k ?_ (h.ext_used k hk), fun k hk => ?_,
      fun k hk j hj => ?_, h.own_high, fun u g hu hm => ?_, fun u w g hu hw h1 h2 => ?_,
      fun u g hu hid' hnu hm => ?_, fun k hk => ?_⟩, hgone, hkeep, hdir,
      fun j _ t ht => (htable j).trans ht⟩
    · rintro rfl; exact hnext hk
    · rw [hdir]; exact h.ext_ne_dir k hk
    · rw [htable]; exact h.ext_ne_table k hk j hj
    · obtain ⟨huv, hm'⟩ := hback u g (h.own_high u hu).2 hm
      obtain ⟨h1, h2, h3, h4⟩ := h.own_used u g hu hm'
      refine ⟨hmono g ?_ h1, h2, by rw [hdir]; exact h3, fun j hj => ?_⟩
      · rintro rfl
        exact huv (h.own_inj u v g hu hown hm' hf)
      · rw [htable]; exact h4 j hj
    · exact h.own_inj u w g hu hw (hback u g (h.own_high u hu).2 h1).2
        (hback w g (h.own_high w hw).2 h2).2
    · exact h.foreign u g hu hid' hnu (hback u g hu hm).2
    · rw [hused, Bool.and_eq_true, Bool.not_eq_true', decide_eq_false_iff_not] at hk
      rcases h.exact k hk.1 with h1 | h1 | ⟨j, hj, h1⟩ | ⟨u, hu, h1⟩
      · exact Or.inl h1
      · exact Or.inr (Or.inl (by rw [hdir]; exact h1))
      · exact Or.inr (Or.inr (Or.inl ⟨j, hj, by rw [htable]; exact h1⟩))
      · refine Or.inr (Or.inr (Or.inr ⟨u, hu, ?_⟩))
        rw [hkeep u (h.own_high u hu).2, h1]
        rintro rfl
        rw [hf] at h1
        exact hk.2 (Option.some.inj h1).symm

/-- A page that is not mapped is left alone. -/
theorem unmapPageLocked_of_none (hwf : s.WF) {a : ℕ} (ha : a < 4294967296)
    (hm : s.mapped (a / 4096) = none) : s.unmapPageLocked a = .ok s := by
  unfold unmapPageLocked
  dsimp only
  rw [Vmm.readEntry_pde hwf.self, pdeIndex_pageBase ha]
  show (if !Entry.present (s.vmm.phys s.vmm.dir (a / 4096 / 1024)) then _ else _) = _
  by_cases hp : Entry.present (s.vmm.phys s.vmm.dir (a / 4096 / 1024)) = true
  · obtain ⟨t, ht⟩ : ∃ t, s.table (a / 4096 / 1024) = some t := ⟨_, table_eq_some.2 ⟨hp, rfl⟩⟩
    obtain ⟨_, hframe⟩ := table_eq_some.1 ht
    have hpte : Entry.present (s.vmm.phys t (a / 4096 % 1024)) = false := by
      unfold mapped at hm
      rw [pte_of_table ht] at hm
      simpa using hm
    rw [hp, Bool.not_true, if_neg Bool.false_ne_true]
    rw [← pdeIndex_pageBase ha] at hp hframe
    rw [Vmm.readEntry_pte hwf.self hp, hframe, pteIndex_pageBase ha]
    show (if !Entry.present (s.vmm.phys t (a / 4096 % 1024)) then _ else _) = _
    rw [hpte, Bool.not_false, if_pos rfl]
    rfl
  · rw [Bool.not_eq_true] at hp
    rw [hp, Bool.not_false, if_pos rfl]
    rfl

theorem Owned.exists_unmapPage (h : Owned s res ext own) {v : ℕ} (hown : own v) :
    ∃ s', s.unmapPageLocked (v * 4096) = .ok s' := by
  have hpage : v * 4096 / 4096 = v := Nat.mul_div_cancel _ (by norm_num)
  obtain ⟨_, hv⟩ := h.own_high v hown
  have ha : v * 4096 < 4294967296 := by omega
  cases hm : s.mapped v with
  | none => exact ⟨s, unmapPageLocked_of_none h.wf ha (by rw [hpage, hm])⟩
  | some f =>
    exact exists_unmapPageLocked h.wf ha (by rw [hpage, hm]) (h.own_used v f hown hm).1

/-- Pages that are not mapped may leave `own`. -/
theorem Owned.shrink (h : Owned s res ext own) {own' : ℕ → Prop} (hsub : ∀ v, own' v → own v)
    (hgone : ∀ v, own v → ¬ own' v → s.mapped v = none) : Owned s res ext own' := by
  refine ⟨h.wf, h.res_ext, h.ext_used, h.ext_ne_dir, h.ext_ne_table,
    fun v hv => h.own_high v (hsub v hv), fun v f hv => h.own_used v f (hsub v hv),
    fun u v f hu hv => h.own_inj u v f (hsub u hu) (hsub v hv), fun v f hv hid hnv hm => ?_,
    fun k hk => ?_⟩
  · by_cases ho : own v
    · rw [hgone v ho hnv] at hm; cases hm
    · exact h.foreign v f hv hid ho hm
  · rcases h.exact k hk with h1 | h1 | h1 | ⟨v, hv, h1⟩
    · exact Or.inl h1
    · exact Or.inr (Or.inl h1)
    · exact Or.inr (Or.inr (Or.inl h1))
    · by_cases ho : own' v
      · exact Or.inr (Or.inr (Or.inr ⟨v, ho, h1⟩))
      · rw [hgone v hv ho] at h1; cases h1

/-- Pages that are not mapped may join `own`. -/
theorem Owned.enlarge (h : Owned s res ext own) {own' : ℕ → Prop} (hsub : ∀ v, own v → own' v)
    (hnew : ∀ v, own' v → ¬ own v → identityPages ≤ v ∧ v / 1024 < 1023 ∧ s.mapped v = none) :
    Owned s res ext own' := by
  have hold : ∀ v f, own' v → s.mapped v = some f → own v := by
    intro v f hv hm
    by_contra hno
    rw [(hnew v hv hno).2.2] at hm
    cases hm
  refine ⟨h.wf, h.res_ext, h.ext_used, h.ext_ne_dir, h.ext_ne_table, fun v hv => ?_,
    fun v f hv hm => h.own_used v f (hold v f hv hm) hm,
    fun u v f hu hv hmu hmv => h.own_inj u v f (hold u f hu hmu) (hold v f hv hmv) hmu hmv,
    fun v f hv hid hno => h.foreign v f hv hid fun ho => hno (hsub v ho), fun k hk => ?_⟩
  · by_cases ho : own v
    · exact h.own_high v ho
    · exact ⟨(hnew v hv ho).1, (hnew v hv ho).2.1⟩
  · refine (h.exact k hk).imp_right (Or.imp_right (Or.imp_right ?_))
    rintro ⟨v, hv, hm⟩
    exact ⟨v, hsub v hv, hm⟩

theorem Owned.congr (h : Owned s res ext own) {ext' own' : ℕ → Prop} (hext : ∀ k, ext' k ↔ ext k)
    (hown : ∀ v, own' v ↔ own v) : Owned s res ext' own' := by
  have he : ext' = ext := funext fun k => propext (hext k)
  have ho : own' = own := funext fun v => propext (hown v)
  rw [he, ho]
  exact h

/-- The frames in use in two states with the same `ext`: where the pages of `own` keep their
frames, and those of `moved` are exchanged for `moved'`, only page tables and the new owned pages can
add to them. -/
theorem Owned.used_iff_moved {moved own' moved' : ℕ → Prop}
    (h : Owned s res ext fun v => own v ∨ moved v)
    (h' : Owned s' res ext fun v => own' v ∨ moved' v) (htab : KeepsTables s s')
    (hsub : ∀ v, own v → own' v) (hdisj : ∀ v, own v → ¬ moved v)
    (hm : ∀ v, own v → s'.mapped v = s.mapped v) (k : ℕ) :
    s'.pmm.used k = true ↔
      (s.pmm.used k = true ∧ ¬ ∃ v, moved v ∧ s.mapped v = some k) ∨
        (∃ j < 1023, s'.table j = some k) ∨ (∃ v, moved' v ∧ s'.mapped v = some k) ∨
        ∃ v, own' v ∧ ¬ own v ∧ s'.mapped v = some k := by
  constructor
  · intro hk
    rcases h'.exact k hk with h1 | h1 | h1 | ⟨v, hv, h1⟩
    · refine Or.inl ⟨h.ext_used k h1, ?_⟩
      rintro ⟨v, hv, hmv⟩
      exact (h.own_used v k (Or.inr hv) hmv).2.1 h1
    · rw [htab.1] at h1
      refine Or.inl ⟨by rw [h1]; exact h.wf.dir_used, ?_⟩
      rintro ⟨v, hv, hmv⟩
      exact (h.own_used v k (Or.inr hv) hmv).2.2.1 h1
    · exact Or.inr (Or.inl h1)
    · rcases hv with hv | hv
      · by_cases ho : own v
        · rw [hm v ho] at h1
          refine Or.inl ⟨(h.own_used v k (Or.inl ho) h1).1, ?_⟩
          rintro ⟨u, hu, hmu⟩
          have huv := h.own_inj u v k (Or.inr hu) (Or.inl ho) hmu h1
          exact hdisj v ho (huv ▸ hu)
        · exact Or.inr (Or.inr (Or.inr ⟨v, hv, ho, h1⟩))
      · exact Or.inr (Or.inr (Or.inl ⟨v, hv, h1⟩))
  · rintro (⟨hk, hnot⟩ | ⟨j, hj, h1⟩ | ⟨v, hv, h1⟩ | ⟨v, hv, _, h1⟩)
    · rcases h.exact k hk with h1 | h1 | ⟨j, hj, h1⟩ | ⟨v, hv | hv, h1⟩
      · exact h'.ext_used k h1
      · rw [h1, ← htab.1]
        exact h'.wf.dir_used
      · exact h'.wf.table_used j hj k (htab.2 j hj k h1)
      · rw [← hm v hv] at h1
        exact (h'.own_used v k (Or.inl (hsub v hv)) h1).1
      · exact absurd ⟨v, hv, h1⟩ hnot
    · exact h'.wf.table_used j hj k h1
    · exact (h'.own_used v k (Or.inr hv) h1).1
    · exact (h'.own_used v k (Or.inl hv) h1).1

/-! ## Frames -/

/-- Allocated frames are in use for whoever asked for them. -/
theorem Owned.allocFrames (h : Owned s res ext own) {pmm : Pmm} {count addr : ℕ}
    (ha : s.pmm.allocFrames count = .ok (pmm, addr)) :
    ∃ i, addr = i * 4096 ∧ i + count ≤ maxFrames ∧
      (∀ k, i ≤ k → k < i + count → s.pmm.used k = false) ∧
      Owned ⟨pmm, s.vmm⟩ res (fun k => ext k ∨ (i ≤ k ∧ k < i + count)) own := by
  obtain ⟨i, hi, rfl, hfree, hused⟩ := Pmm.allocFrames_eq_ok ha
  have hfresh : ∀ k, i ≤ k → k < i + count → s.pmm.used k = false := by
    intro k h1 h2
    have := hfree (k - i) (by omega)
    rwa [show i + (k - i) = k by omega] at this
  have hmono : ∀ k, s.pmm.used k = true → Pmm.used pmm k = true := by
    intro k hk; rw [hused, hk, Bool.true_or]
  have hnot : ∀ k, s.pmm.used k = true → ¬ (i ≤ k ∧ k < i + count) := by
    intro k hk hin
    rw [hfresh k hin.1 hin.2] at hk
    cases hk
  refine ⟨i, rfl, hi, hfresh, ⟨h.wf.self, hmono _ h.wf.dir_used, fun j hj t ht => hmono _
    (h.wf.table_used j hj t ht), h.wf.table_ne_dir, h.wf.table_inj⟩, fun k hk => Or.inl
    (h.res_ext k hk), fun k hk => ?_, fun k hk => ?_, fun k hk j hj => ?_, h.own_high,
    fun v f hv hm => ?_, h.own_inj, h.foreign, fun k hk => ?_⟩
  · rcases hk with hk | hk
    · exact hmono k (h.ext_used k hk)
    · show Pmm.used pmm k = true
      rw [hused, decide_eq_true hk, Bool.or_true]
  · rcases hk with hk | hk
    · exact h.ext_ne_dir k hk
    · rintro rfl; exact hnot _ h.wf.dir_used hk
  · rcases hk with hk | hk
    · exact h.ext_ne_table k hk j hj
    · exact fun e => hnot _ (h.wf.table_used j hj k e) hk
  · obtain ⟨h1, h2, h3⟩ := h.own_used v f hv hm
    refine ⟨hmono f h1, fun he => ?_, h3⟩
    rcases he with he | he
    · exact h2 he
    · exact hnot f h1 he
  · have hk' : (s.pmm.used k || decide (i ≤ k ∧ k < i + count)) = true := by
      rw [← hused]; exact hk
    rw [Bool.or_eq_true, decide_eq_true_eq] at hk'
    rcases hk' with hk' | hk'
    · rcases h.exact k hk' with h1 | h1
      · exact Or.inl (Or.inl h1)
      · exact Or.inr h1
    · exact Or.inl (Or.inr hk')

/-- Frames in use for something else are given back. -/
theorem Owned.freeFrames (h : Owned s res ext own) {pmm : Pmm} {i count : ℕ}
    (hi : i + count ≤ maxFrames) (hext : ∀ k, i ≤ k → k < i + count → ext k ∧ ¬ res k)
    (hf : s.pmm.freeFrames (i * 4096) count = .ok pmm) :
    Owned ⟨pmm, s.vmm⟩ res (fun k => ext k ∧ ¬ (i ≤ k ∧ k < i + count)) own := by
  have hdiv : i * 4096 / 4096 = i := Nat.mul_div_cancel _ (by norm_num)
  have hused : ∀ k, Pmm.used pmm k = (s.pmm.used k && !decide (i ≤ k ∧ k < i + count)) := by
    unfold maxFrames at hi
    have hread := (Pmm.freeFrames_eq_ok (by rw [hdiv]; omega) hf).2
    rw [hdiv] at hread
    exact hread
  have hmono : ∀ k, ¬ ext k → s.pmm.used k = true → Pmm.used pmm k = true := by
    intro k hk hu
    rw [hused, hu, decide_eq_false fun hin => hk (hext k hin.1 hin.2).1]
    rfl
  have hdir : ¬ ext s.vmm.dir := fun he => h.ext_ne_dir _ he rfl
  refine ⟨⟨h.wf.self, hmono _ hdir h.wf.dir_used, fun j hj t ht => hmono _
    (fun he => h.ext_ne_table t he j hj ht) (h.wf.table_used j hj t ht), h.wf.table_ne_dir,
    h.wf.table_inj⟩, fun k hk => ⟨h.res_ext k hk, fun hin => (hext k hin.1 hin.2).2 hk⟩,
    fun k hk => ?_, fun k hk => h.ext_ne_dir k hk.1, fun k hk => h.ext_ne_table k hk.1, h.own_high,
    fun v f hv hm => ?_, h.own_inj, h.foreign, fun k hk => ?_⟩
  · show Pmm.used pmm k = true
    rw [hused, h.ext_used k hk.1, decide_eq_false hk.2]
    rfl
  · obtain ⟨h1, h2, h3⟩ := h.own_used v f hv hm
    exact ⟨hmono f h2 h1, fun he => h2 he.1, h3⟩
  · have hk' : (s.pmm.used k && !decide (i ≤ k ∧ k < i + count)) = true := by
      rw [← hused]; exact hk
    rw [Bool.and_eq_true, Bool.not_eq_true', decide_eq_false_iff_not] at hk'
    rcases h.exact k hk'.1 with h1 | h1
    · exact Or.inl ⟨h1, hk'.2⟩
    · exact Or.inr h1

/-! ## Runs of pages -/

/-- The page addressed by iteration `i`. -/
theorem runAddr {v i : ℕ} (h : v + i < 1048576) :
    Word32.add (v * 4096) (Word32.mul i pageSize) = (v + i) * 4096 := by
  unfold pageSize
  rw [Word32.mul_eq (by omega), Word32.add_eq (by omega)]
  omega

/-- A run of pages takes over a run of frames. -/
theorem Owned.mapRun {v f flags : ℕ} (hflags : flags % 2 = 1) : ∀ {n i : ℕ} {s s' : Mm}
    {ext own : ℕ → Prop}, Owned s res ext own → (v + i + n) ≤ 1047552 → identityPages ≤ v + i →
    f + i + n ≤ maxFrames → (∀ u, v + i ≤ u → u < v + i + n → ¬ own u) →
    (∀ k, f + i ≤ k → k < f + i + n → ext k ∧ ¬ res k) →
    Mm.mapRun (v * 4096) (f * 4096) flags n i s = .ok s' →
      Owned s' res (fun k => ext k ∧ ¬ (f + i ≤ k ∧ k < f + i + n))
        (fun u => own u ∨ (v + i ≤ u ∧ u < v + i + n)) ∧
      (∀ j, i ≤ j → j < i + n → s'.mapped (v + j) = some (f + j)) ∧
      (∀ u, u / 1024 < 1023 → ¬ (v + i ≤ u ∧ u < v + i + n) → s'.mapped u = s.mapped u) ∧
      KeepsTables s s' := by
  intro n
  induction n with
  | zero =>
    intro i s s' ext own h _ _ _ _ _ hrun
    cases hrun
    refine ⟨h.congr (fun k => ?_) (fun u => ?_), fun j h1 h2 => absurd h2 (by omega),
      fun u _ _ => rfl, .refl _⟩
    · exact ⟨fun hk => hk.1, fun hk => ⟨hk, by omega⟩⟩
    · exact ⟨fun hu => hu.resolve_right (by omega), Or.inl⟩
  | succ n ih =>
    intro i s s' ext own h hv hid hf hown hext hrun
    unfold maxFrames at hf
    rw [Mm.mapRun, K.bind_eq_ok] at hrun
    obtain ⟨s₁, h₁, hrun⟩ := hrun
    rw [runAddr (by omega), runAddr (by omega)] at h₁
    obtain ⟨hfe, hfr⟩ := hext (f + i) (by omega) (by omega)
    obtain ⟨ho, hm, hkeep, htab⟩ := h.mapOwned (by omega) (by omega) (by unfold maxFrames; omega) hflags
      (hown (v + i) (by omega) (by omega)) hfe hfr h₁
    obtain ⟨ho', hm', hkeep', htab'⟩ := ih (i := i + 1) ho (by omega) (by omega)
      (by unfold maxFrames; omega)
      (fun u h1 h2 hu => hu.elim (hown u (by omega) (by omega)) (by omega))
      (fun k h1 h2 => ⟨⟨(hext k (by omega) (by omega)).1, by omega⟩,
        (hext k (by omega) (by omega)).2⟩) hrun
    refine ⟨ho'.congr (fun k => ?_) (fun u => ?_), fun j h1 h2 => ?_, fun u hu hout => ?_,
      htab.trans htab'⟩
    · constructor
      · rintro ⟨h1, h2⟩; exact ⟨⟨h1, by omega⟩, by omega⟩
      · rintro ⟨⟨h1, h2⟩, h3⟩; exact ⟨h1, by omega⟩
    · constructor
      · rintro (h1 | h1)
        · exact Or.inl (Or.inl h1)
        · by_cases huv : u = v + i
          · exact Or.inl (Or.inr huv)
          · exact Or.inr (by omega)
      · rintro ((h1 | h1) | h1)
        · exact Or.inl h1
        · exact Or.inr (by omega)
        · exact Or.inr (by omega)
    · by_cases hj : j = i
      · subst hj
        rw [hkeep' (v + j) (by omega) (by omega), hm]
      · exact hm' j (by omega) (by omega)
    · rw [hkeep' u hu (by omega), hkeep u hu (by omega)]

/-- A run of mappings leaves the frames that are in use for other things alone. -/
theorem phys_mapRun {v p flags g : ℕ} : ∀ {n i : ℕ} {s s' : Mm}, s.WF → v + i + n ≤ 1047552 →
    s.pmm.used g = true → g ≠ s.vmm.dir → (∀ j < 1023, s.table j ≠ some g) →
    Mm.mapRun (v * 4096) p flags n i s = .ok s' → s'.vmm.phys g = s.vmm.phys g := by
  intro n
  induction n with
  | zero =>
    intro i s s' _ _ _ _ _ hrun
    cases hrun
    rfl
  | succ n ih =>
    intro i s s' hwf hv hg hdir htab hrun
    rw [Mm.mapRun, K.bind_eq_ok] at hrun
    obtain ⟨s₁, h₁, hrun⟩ := hrun
    rw [runAddr (by omega)] at h₁
    obtain ⟨hwf₁, hdir₁, hstep, _⟩ := mapPageLocked_spec hwf (by omega) (by omega) h₁
    rw [ih hwf₁ (by omega) (hstep.used_mono hg) (by rw [hdir₁]; exact hdir)
      (hstep.ne_table hg htab) hrun,
      phys_mapPageLocked hwf (by omega) (by omega) h₁ hg hdir htab]

/-- A run of pages outside `own` is mapped to the frames of the same numbers, which are never given
back. -/
theorem Owned.mapIdentityRun {v flags : ℕ} (hflags : flags % 2 = 1) : ∀ {n i : ℕ} {s s' : Mm},
    Owned s res ext own →
    (∀ j, i ≤ j → j < i + n → (v + j) / 1024 < 1023 ∧ ¬ own (v + j) ∧
      (v + j < identityPages ∨ res (v + j))) →
    Mm.mapRun (v * 4096) (v * 4096) flags n i s = .ok s' → Owned s' res ext own := by
  intro n
  induction n with
  | zero =>
    intro i s s' h _ hrun
    cases hrun
    exact h
  | succ n ih =>
    intro i s s' h hpages hrun
    rw [Mm.mapRun, K.bind_eq_ok] at hrun
    obtain ⟨s₁, h₁, hrun⟩ := hrun
    obtain ⟨hv, hown, hres⟩ := hpages i le_rfl (by omega)
    rw [runAddr (by omega)] at h₁
    have ho := h.mapForeign hv (by unfold maxFrames; omega) hflags hown hres h₁
    exact ih ho (fun j h1 h2 => hpages j (by omega) (by omega)) hrun

/-- A run of owned pages gives its frames back. -/
theorem Owned.unmapRun {v : ℕ} : ∀ {n i : ℕ} {s s' : Mm}, Owned s res ext own →
    v + i + n ≤ 1047552 → (∀ u, v + i ≤ u → u < v + i + n → own u) →
    Mm.unmapRun (v * 4096) n i s = .ok s' →
      Owned s' res ext own ∧ (∀ u, v + i ≤ u → u < v + i + n → s'.mapped u = none) ∧
      (∀ u, u / 1024 < 1023 → ¬ (v + i ≤ u ∧ u < v + i + n) → s'.mapped u = s.mapped u) ∧
      KeepsTables s s' := by
  intro n
  induction n with
  | zero =>
    intro i s s' h _ _ hrun
    cases hrun
    exact ⟨h, fun u h1 h2 => absurd h2 (by omega), fun u _ _ => rfl, .refl _⟩
  | succ n ih =>
    intro i s s' h hv hown hrun
    rw [Mm.unmapRun, K.bind_eq_ok] at hrun
    obtain ⟨s₁, h₁, hrun⟩ := hrun
    rw [runAddr (by omega)] at h₁
    obtain ⟨ho, hm, hkeep, htab⟩ := h.unmapOwned (hown (v + i) (by omega) (by omega)) h₁
    obtain ⟨ho', hm', hkeep', htab'⟩ := ih (i := i + 1) ho (by omega)
      (fun u h1 h2 => hown u (by omega) (by omega)) hrun
    refine ⟨ho', fun u h1 h2 => ?_, fun u hu hout => ?_, htab.trans htab'⟩
    · by_cases huv : u = v + i
      · rw [huv, hkeep' (v + i) (by omega) (by omega), hm]
      · exact hm' u (by omega) (by omega)
    · rw [hkeep' u hu (by omega), hkeep u hu (by omega)]

/-- `alloc_frames` and `map_pages` together: a run of pages gets frames of its own. -/
theorem Owned.mapFresh (h : Owned s res ext own) {pmm : Pmm} {v pages physAddr flags : ℕ}
    (hflags : flags % 2 = 1) (hv : v + pages ≤ 1047552) (hid : identityPages ≤ v)
    (hown : ∀ u, v ≤ u → u < v + pages → ¬ own u)
    (ha : s.pmm.allocFrames pages = .ok (pmm, physAddr))
    (hmap : Mm.mapPages ⟨pmm, s.vmm⟩ (v * 4096) physAddr pages flags = .ok s') :
    Owned s' res ext (fun u => own u ∨ (v ≤ u ∧ u < v + pages)) ∧
      (∀ u, v ≤ u → u < v + pages → ∃ f, s'.mapped u = some f ∧ s.pmm.used f = false) ∧
      (∀ u, u / 1024 < 1023 → ¬ (v ≤ u ∧ u < v + pages) → s'.mapped u = s.mapped u) ∧
      KeepsTables s s' := by
  obtain ⟨f, rfl, hf, hfree, ho⟩ := h.allocFrames ha
  have hnew : ∀ k, f ≤ k → k < f + pages → ¬ ext k := by
    intro k h1 h2 he
    have := hfree k h1 h2
    rw [h.ext_used k he] at this
    cases this
  unfold Mm.mapPages at hmap
  unfold maxFrames at hf
  by_cases h0 : pages = 0
  · subst h0
    cases hmap
    refine ⟨?_, fun u h1 h2 => absurd h2 (by omega), fun u _ _ => rfl, .refl _⟩
    exact ho.congr (fun k => ⟨Or.inl, fun hk => hk.resolve_right (by omega)⟩)
      (fun u => ⟨fun hu => hu.resolve_right (by omega), Or.inl⟩)
  · rw [pageBase_eq (by omega), pageBase_eq (by omega), Nat.mul_div_cancel _ (by norm_num),
      Nat.mul_div_cancel _ (by norm_num)] at hmap
    obtain ⟨ho', hm, hkeep, htab⟩ := ho.mapRun (i := 0) hflags (by omega) (by omega)
      (by unfold maxFrames; omega) (fun u h1 h2 => hown u (by omega) (by omega))
      (fun k h1 h2 => ⟨Or.inr ⟨by omega, by omega⟩, fun hr => hnew k (by omega) (by omega)
        (h.res_ext k hr)⟩) hmap
    refine ⟨ho'.congr (fun k => ?_) (fun u => ?_), fun u h1 h2 => ?_, fun u hu hout => ?_, htab⟩
    · constructor
      · intro hk
        exact ⟨Or.inl hk, fun hin => hnew k (by omega) (by omega) hk⟩
      · rintro ⟨h1 | h1, h2⟩
        · exact h1
        · exact absurd h1 (by omega)
    · constructor
      · rintro (h1 | h1)
        · exact Or.inl h1
        · exact Or.inr (by omega)
      · rintro (h1 | h1)
        · exact Or.inl h1
        · exact Or.inr (by omega)
    · have := hm (u - v) (by omega) (by omega)
      rw [show v + (u - v) = u by omega] at this
      exact ⟨_, this, hfree _ (by omega) (by omega)⟩
    · exact hkeep u hu (by omega)

/-- `unmap_pages` on owned pages, which leave `own`. -/
theorem Owned.unmapPages (h : Owned s res ext own) {v pages : ℕ} (hv : v + pages ≤ 1047552)
    (hown : ∀ u, v ≤ u → u < v + pages → own u)
    (hunmap : s.unmapPages (v * 4096) pages = .ok s') :
    Owned s' res ext (fun u => own u ∧ ¬ (v ≤ u ∧ u < v + pages)) ∧
      (∀ u, v ≤ u → u < v + pages → s'.mapped u = none) ∧
      (∀ u, u / 1024 < 1023 → ¬ (v ≤ u ∧ u < v + pages) → s'.mapped u = s.mapped u) ∧
      KeepsTables s s' := by
  unfold Mm.unmapPages at hunmap
  rw [pageBase_eq (by omega), Nat.mul_div_cancel _ (by norm_num)] at hunmap
  obtain ⟨ho, hm, hkeep, htab⟩ := h.unmapRun (i := 0) (by omega)
    (fun u h1 h2 => hown u (by omega) (by omega)) hunmap
  refine ⟨ho.shrink (fun u hu => hu.1) (fun u hu hn => ?_), fun u h1 h2 => hm u (by omega) (by omega),
    fun u hu hout => hkeep u hu (by omega), htab⟩
  have hin : v ≤ u ∧ u < v + pages := by
    by_contra hc
    exact hn ⟨hu, hc⟩
  exact hm u (by omega) (by omega)

/-! ## The first page tables -/

/-- **`vmm::init`.** The two frames it takes are the directory and the table of the identity window;
every other frame in use was so before. -/
theorem owned_init {p : Pmm} {phys : ℕ → ℕ → ℕ} (h : Mm.init p phys = .ok s) :
    Owned s (fun k => p.used k = true) (fun k => p.used k = true) (fun _ => False) := by
  unfold Mm.init at h
  rw [K.bind_eq_ok] at h
  obtain ⟨⟨p₁, pdPhys⟩, h₁, h⟩ := h
  dsimp only at h
  rw [K.bind_eq_ok] at h
  obtain ⟨⟨p₂, ptPhys⟩, h₂, h⟩ := h
  dsimp only at h
  split_ifs at h with h0
  cases h
  obtain ⟨d, hd, rfl, hdfree, hread₁⟩ := Pmm.allocFrames_eq_ok h₁
  obtain ⟨t, ht, rfl, htfree, hread₂⟩ := Pmm.allocFrames_eq_ok h₂
  have hdiv : ∀ x : ℕ, x * 4096 / 4096 = x := fun x => Nat.mul_div_cancel _ (by norm_num)
  unfold pageSize
  rw [hdiv, hdiv]
  unfold maxFrames at hd ht
  have hdf : p.used d = false := hdfree 0 one_pos
  have htf : p₁.used t = false := htfree 0 one_pos
  have hused : ∀ k, Pmm.used p₂ k = true ↔ p.used k = true ∨ k = d ∨ k = t := by
    intro k
    rw [hread₂, hread₁]
    simp only [Bool.or_eq_true, decide_eq_true_eq, or_assoc]
    constructor
    · rintro (h | h | h)
      · exact Or.inl h
      · exact Or.inr (Or.inl (by omega))
      · exact Or.inr (Or.inr (by omega))
    · rintro (h | h | h)
      · exact Or.inl h
      · exact Or.inr (Or.inl (by omega))
      · exact Or.inr (Or.inr (by omega))
  have htp : p.used t = false ∧ t ≠ d := by
    rw [hread₁, Bool.or_eq_false_iff, decide_eq_false_iff_not] at htf
    exact ⟨htf.1, by omega⟩
  obtain ⟨m, hm⟩ : ∃ m, m = firstTables phys d t := ⟨_, rfl⟩
  rw [← hm]
  have hdir : m.dir = d := by rw [hm]; rfl
  have hflag : ((flagPresent ||| flagWritable) % 2 = 1) := by decide
  have hword : ∀ i, m.phys m.dir i =
      if i = 1023 then Entry.make (d * 4096) (flagPresent ||| flagWritable)
      else if i = 0 then Entry.make (t * 4096) (flagPresent ||| flagWritable)
      else 0 := by
    intro i; rw [hdir, hm]; exact if_pos rfl
  have htable : ∀ j < 1023, table ⟨p₂, m⟩ j = if j = 0 then some t else none := by
    intro j hj
    have hj1 : j ≠ 1023 := by omega
    by_cases hj0 : j = 0
    · rw [if_pos hj0]
      refine table_eq_some.2 ⟨?_, ?_⟩
      · show Entry.present (m.phys m.dir j) = true
        rw [hword, if_neg hj1, if_pos hj0, Entry.present_make]
        exact decide_eq_true hflag
      · show Entry.frame (m.phys m.dir j) = t
        rw [hword, if_neg hj1, if_pos hj0, Entry.frame_make, hdiv, Nat.mod_eq_of_lt (by omega)]
    · rw [if_neg hj0]
      refine table_eq_none.2 ?_
      show Entry.present (m.phys m.dir j) = false
      rw [hword, if_neg hj1, if_neg hj0, Entry.present_zero]
  have htab : ∀ j < 1023, ∀ x, table ⟨p₂, m⟩ j = some x → j = 0 ∧ x = t := by
    intro j hj x hx
    rw [htable j hj] at hx
    split_ifs at hx with hj0
    exact ⟨hj0, (Option.some.inj hx).symm⟩
  refine ⟨⟨?_, (hused _).2 (Or.inr (Or.inl hdir)), fun j hj x hx => ?_, fun j hj x hx => ?_,
    fun i hi j hj x h1 h2 => ?_⟩, fun _ hk => hk, fun k hk => (hused k).2 (Or.inl hk),
    fun k hk => ?_, fun k hk j hj hx => ?_, fun _ hv => hv.elim, fun _ _ hv => hv.elim,
    fun _ _ _ hv => hv.elim, fun v f hv hid _ hmap => ?_, fun k hk => ?_⟩
  · show Entry.present (m.phys m.dir 1023) = true ∧ Entry.frame (m.phys m.dir 1023) = m.dir
    rw [hword, if_pos rfl, Entry.present_make, Entry.frame_make, hdir, hdiv]
    exact ⟨decide_eq_true hflag, Nat.mod_eq_of_lt (by omega)⟩
  · exact (hused x).2 (Or.inr (Or.inr (htab j hj x hx).2))
  · show x ≠ m.dir
    rw [(htab j hj x hx).2, hdir]
    exact htp.2
  · rw [(htab i hi x h1).1, (htab j hj x h2).1]
  · show k ≠ m.dir
    rw [hdir]
    rintro rfl
    rw [hdf] at hk
    cases hk
  · rw [(htab j hj k hx).2, htp.1] at hk
    cases hk
  · -- above the identity window there is no page table yet
    unfold identityPages at hid
    have hnone : table ⟨p₂, m⟩ (v / 1024) = none := by
      rw [htable _ hv, if_neg (by omega)]
    rw [mapped_zero (pte_of_none hnone)] at hmap
    cases hmap
  · rcases (hused k).1 hk with h1 | h1 | h1
    · exact Or.inl h1
    · exact Or.inr (Or.inl (h1.trans hdir.symm))
    · exact Or.inr (Or.inr (Or.inl ⟨0, by norm_num, by rw [htable 0 (by norm_num), h1]; rfl⟩))

end

end Mm

end Ospp
