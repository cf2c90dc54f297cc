import Ospp.Sys.LinkerImage
import Ospp.Sys.LinkerPlacement
import Ospp.Sys.LiveRelocation

/-!
# Loading an object that nothing else touches

The frames an object lies in may be out of reach of a load: in use, no page tables, and no page that
a load writes leads to them. Then every read gives what memory held before the load, and the linker
in live memory does what `Linker` does with the object of that moment.

What a load writes lies on the pages of the heap, in the module window and, where the check of an
offset has wrapped, on the page before it (`Reach`).
-/

namespace Ospp

/-! ## Frames of others -/

/-- Some of the owned pages are given up. Their frames belong to others then. -/
theorem Mm.Owned.disown {s : Mm} {res ext own own' : ℕ → Prop} (h : s.Owned res ext own)
    (hsub : ∀ v, own' v → own v) :
    s.Owned (fun k => res k ∨ ∃ v, own v ∧ ¬ own' v ∧ s.mapped v = some k)
      (fun k => ext k ∨ ∃ v, own v ∧ ¬ own' v ∧ s.mapped v = some k) own' := by
  refine ⟨h.wf, fun k => Or.imp_left (h.res_ext k), ?_, ?_, ?_, fun v hv => h.own_high v (hsub v hv),
    fun v f hv hm => ?_, fun u v f hu hv => h.own_inj u v f (hsub u hu) (hsub v hv),
    fun v f hlow hhigh hn hm => ?_, fun k hk => ?_⟩
  · rintro k (hk | ⟨v, hv, _, hm⟩)
    · exact h.ext_used k hk
    · exact (h.own_used v k hv hm).1
  · rintro k (hk | ⟨v, hv, _, hm⟩)
    · exact h.ext_ne_dir k hk
    · exact (h.own_used v k hv hm).2.2.1
  · rintro k (hk | ⟨v, hv, _, hm⟩)
    · exact h.ext_ne_table k hk
    · exact (h.own_used v k hv hm).2.2.2
  · obtain ⟨hused, hext, hdir, htab⟩ := h.own_used v f (hsub v hv) hm
    refine ⟨hused, ?_, hdir, htab⟩
    rintro (hf | ⟨u, hu, hn, hmu⟩)
    · exact hext hf
    · rw [h.own_inj u v f hu (hsub v hv) hmu hm] at hn
      exact hn hv
  · by_cases hown : own v
    · exact Or.inr ⟨v, hown, hn, hm⟩
    · exact Or.inl (h.foreign v f hlow hhigh hown hm)
  · rcases h.exact k hk with hk | hk | hk | ⟨v, hv, hm⟩
    · exact Or.inl (Or.inl hk)
    · exact Or.inr (Or.inl hk)
    · exact Or.inr (Or.inr (Or.inl hk))
    · by_cases hv' : own' v
      · exact Or.inr (Or.inr (Or.inr ⟨v, hv', hm⟩))
      · exact Or.inl (Or.inr ⟨v, hv, hv', hm⟩)

namespace LiveLinker

open Linker Trans

/-- The pages a load writes. -/
def Reach (v : ℕ) : Prop := Mm.HeapWindow v ∨ (0x9FFF ≤ v ∧ v < 0xA080)

theorem Reach.low {v : ℕ} (h : Reach v) : v / 1024 < 1023 := by
  rcases h with ⟨_, h⟩ | ⟨_, h⟩
  · unfold heapMaxAddr at h
    omega
  · omega

theorem Reach.of_window {v : ℕ} (h : Window v) : Reach v := by
  obtain ⟨h1, h2⟩ := h
  unfold modulePage at h1
  unfold modulePage moduleSpacePageCount at h2
  exact Or.inr ⟨by omega, by omega⟩

/-- The byte at `x` lies in a frame of others, out of reach. -/
def Safe (ext : ℕ → Prop) (m : ModuleSpace) (x : ℕ) : Prop :=
  x / 4096 / 1024 < 1023 ∧ ∃ f, m.mm.mapped (x / 4096) = some f ∧ ext f ∧
    ∀ v, Reach v → m.mm.mapped v ≠ some f

/-- Bytes out of reach stay there, and are as they were. -/
def Spares (ext : ℕ → Prop) (m m' : ModuleSpace) : Prop :=
  ∀ x, Safe ext m x → Safe ext m' x ∧ m'.mm.vmm.readByte x = m.mm.vmm.readByte x

section

variable {res ext own : ℕ → Prop} {rs : List PageRun} {m m' m'' : ModuleSpace} {e e' : ℕ}

theorem Spares.refl (ext : ℕ → Prop) (m : ModuleSpace) : Spares ext m m := fun _ h => ⟨h, rfl⟩

theorem Spares.trans (h : Spares ext m m') (h' : Spares ext m' m'') : Spares ext m m'' := by
  intro x hx
  obtain ⟨hx', hr⟩ := h x hx
  obtain ⟨hx'', hr'⟩ := h' x hx'
  exact ⟨hx'', hr'.trans hr⟩

theorem Safe.known {x : ℕ} (h : Safe ext m x) : Known m m x := by
  obtain ⟨hlow, f, hm, _⟩ := h
  unfold Known bytesOf
  rw [Mm.readByte_eq (by omega), hm]

theorem Spares.known {x : ℕ} (h : Spares ext m m') (hx : Safe ext m x) : Known m m' x :=
  (h x hx).2.trans hx.known

/-- Pages within reach may be mapped to other frames, as long as these are not those of others. -/
theorem spares_of_moved
    (hkeep : ∀ v, v / 1024 < 1023 → ¬ Reach v → m'.mm.mapped v = m.mm.mapped v)
    (hforeign : ∀ v f, Reach v → ext f → m'.mm.mapped v = some f → m.mm.mapped v = some f)
    (hphys : ∀ f, ext f → (∀ v, Reach v → m.mm.mapped v ≠ some f) →
      m'.mm.vmm.phys f = m.mm.vmm.phys f) : Spares ext m m' := by
  rintro x ⟨hlow, f, hm, hf, hfree⟩
  have hm' : m'.mm.mapped (x / 4096) = some f := by
    rw [hkeep _ hlow fun hr => hfree _ hr hm, hm]
  refine ⟨⟨hlow, f, hm', hf, fun v hv hv' => hfree v hv (hforeign v f hv hf hv')⟩, ?_⟩
  rw [Mm.readByte_eq (by omega), Mm.readByte_eq (by omega), hm', hm]
  dsimp only
  rw [hphys f hf hfree]

/-- **A call of the heap.** -/
theorem spares_heapCall (h : m.Inv res ext (withHeap own e) rs) (he : HeapEndOk e)
    (hout : ∀ v, own v → ¬ Mm.HeapWindow v) {as : List HeapEffect} (has : ∀ a ∈ as, a.InHeap)
    (hr : heapCall m e as = .ok (m', e')) : Spares ext m m' := by
  unfold heapCall at hr
  rw [K.bind_eq_ok] at hr
  obtain ⟨⟨mm, e₁⟩, hc, hr⟩ := hr
  cases hr
  have hown : Mm.Owned m.mm res ext fun v => (own v ∨ ∃ r ∈ rs, r.Has v) ∨
      Mm.heapHas (some e) v := h.owned.congr (fun _ => Iff.rfl) fun v => or_right_comm
  have hout' : ∀ v, (own v ∨ ∃ r ∈ rs, r.Has v) → ¬ Mm.HeapWindow v :=
    fun v hv => hv.elim (hout v) fun hv => not_heapWindow (window_of_has h hv)
  have hmove := Mm.Owned.heapCall hout' hown he hc
  exact spares_of_moved (fun v hv hn => hmove.mapped v hv fun hw => hn (Or.inl hw))
    (fun v f hv hf hm => hmove.foreign v f hv.low hf hm)
    fun f hf hfree => Mm.Owned.phys_heapCall hout' hf hown he has
      (fun v hv => hfree v (Or.inl hv)) hc

/-- **Mapping a region.** -/
theorem spares_mapRegion (h : m.Inv res ext own rs) {pages : ℕ} {base : Option ℕ}
    (hpos : 0 < pages) (hmap : m.mapRegion pages = .ok (m', base)) : Spares ext m m' := by
  obtain ⟨i, pmm, phys, rfl, hi, _, _, hp, hmm, _, _⟩ := h.mapRegion_cases hpos hmap
  obtain ⟨i', hbase, hinv, _, hkeep, _⟩ := h.mapRegion hpos hmap
  have hreach : ∀ v, PageRun.Has ⟨i', pages⟩ v → Reach v := fun v hv =>
    .of_window (window_of_has hinv ⟨_, List.mem_cons_self, hv⟩)
  unfold moduleSpacePageCount at hi
  refine spares_of_moved (fun v hv hn => hkeep v hv fun hin => hn (hreach v hin))
    (fun v f hv hf hm => ?_) fun f hf _ =>
      h.owned.phys_mapFresh (v := modulePage + i) (by unfold modulePage; omega) hp hmm hf
  by_cases hin : PageRun.Has ⟨i', pages⟩ v
  · exact absurd hf (hinv.owned.own_used v f (Or.inr ⟨_, List.mem_cons_self, hin⟩) hm).2.1
  · rwa [← hkeep v hv.low hin]

/-- **Writing** within reach. -/
theorem spares_writeBytes (h : m.Inv res ext own rs) {a n : ℕ} {f : ℕ → UInt8} {vmm : Vmm}
    (hlo : 0x9FFF000 ≤ a) (hhi : a + n ≤ 0xA080000)
    (hw : m.mm.vmm.writeBytes a f n = .ok vmm) : Spares ext m (withVmm m vmm) := by
  have hsame := same_writeBytes h (by omega) (by omega) hw
  rintro x ⟨hlow, g, hm, hg, hfree⟩
  refine ⟨⟨hlow, g, by rw [hsame.mapped _ hlow]; exact hm, hg, fun v hv => ?_⟩, ?_⟩
  · rw [hsame.mapped v hv.low]
    exact hfree v hv
  · refine h.owned.readByte_writeBytes_of_ne (by omega) (by unfold Mm.identityPages; omega)
      (by omega) (fun k hk htr => ?_) hw
    rw [Mm.translate_eq (by omega), Mm.translate_eq (by omega), hm] at htr
    have hreach : Reach ((a + k) / 4096) := Or.inr ⟨by omega, by omega⟩
    cases hma : m.mm.mapped ((a + k) / 4096) with
    | none =>
      rw [hma] at htr
      cases htr
    | some g' =>
      rw [hma, Option.map_some, Option.map_some, Option.some.injEq] at htr
      refine hfree _ hreach (hma.trans (congrArg some ?_))
      omega

end

/-! ## What a load reads -/

/-- The bytes of an object that a load may read. -/
inductive LoadReads (o : Object) (x : ℕ) : Prop where
  | header {i : ℕ} (hi : i < o.secHdrsNum.toNat) (h : Bytes (headerAt (Layout.new o) i) 40 x)
  | contents {i : ℕ} (hi : i < o.secHdrsNum.toNat) (ht : (o.secHdr i).type = shtProgbits)
      (h : Bytes (o.headerOffset (o.secHdr i).offset) (o.secHdr i).size x)
  | relocation {L : Layout} (hL : L.obj = o) (h : ObjectReads L x)

section

variable {res ext own : ℕ → Prop} {rs : List PageRun} {m₀ m m' : ModuleSpace} {e e' : ℕ}
  {L L' : Layout} {tab : List KexpEntry}

/-! ## Planning -/

/-- A field of a header. -/
theorem field_known {i k : ℕ} (h : ∀ x, Bytes (headerAt L i) 40 x → Known m₀ m x) (hk : k ≤ 36) :
    m.mm.vmm.read32 (Word32.add (secHdr L.obj i) k) =
      .ok (Mem.read32 (bytesOf m₀) (headerAt L i + k)) := by
  have hat : secHdr L.obj i = headerAt L i % 4294967296 := rfl
  rw [hat, add_mod]
  exact read32_known fun x hx => h x (hx.mono (by omega))

/-- **One header.** -/
theorem stage0Section_known {calls : LoadCalls} {i : ℕ} (himg : L.obj.image = bytesOf m₀)
    (h : ∀ x, Bytes (headerAt L i) 40 x → Known m₀ m x)
    (h' : ∀ x, Bytes (headerAt L i) 40 x → Known m₀ m' x)
    (hr : stage0Section calls m e L i = .ok (m', e', L')) :
    L' = Linker.stage0Section L i (L.obj.secHdr i) := by
  have hfield : ∀ k ≤ 36, m.mm.vmm.read32 (Word32.add (secHdr L.obj i) k) =
      .ok (Mem.read32 L.obj.image (headerAt L i + k)) := fun k hk => by
    rw [himg]
    exact field_known h hk
  have hfield' : ∀ k ≤ 36, m'.mm.vmm.read32 (Word32.add (secHdr L.obj i) k) =
      .ok (Mem.read32 L.obj.image (headerAt L i + k)) := fun k hk => by
    rw [himg]
    exact field_known h' hk
  unfold stage0Section at hr
  dsimp only at hr
  unfold Linker.stage0Section
  rw [hfield 8 (by norm_num), hfield 4 (by norm_num), hfield 20 (by norm_num)] at hr
  rw [K.bind_eq_ok] at hr
  obtain ⟨_, hflags, hr⟩ := hr
  cases hflags
  by_cases halloc : (L.obj.secHdr i).flags &&& shfAlloc = 0
  · rw [if_pos halloc]
    rw [if_pos (show Mem.read32 L.obj.image (headerAt L i + 8) &&& shfAlloc = 0 from halloc)] at hr
    cases hr
    rfl
  rw [if_neg halloc]
  rw [if_neg (show ¬ Mem.read32 L.obj.image (headerAt L i + 8) &&& shfAlloc = 0 from halloc),
    K.bind_eq_ok] at hr
  obtain ⟨_, htype, hr⟩ := hr
  cases htype
  by_cases hnull : (L.obj.secHdr i).type = shtNull
  · rw [if_pos (Or.inl hnull)]
    rw [if_pos (show Mem.read32 L.obj.image (headerAt L i + 4) = shtNull from hnull)] at hr
    cases hr
    rfl
  rw [if_neg (show ¬ Mem.read32 L.obj.image (headerAt L i + 4) = shtNull from hnull),
    K.bind_eq_ok] at hr
  obtain ⟨_, hsize, hr⟩ := hr
  cases hsize
  by_cases hempty : (L.obj.secHdr i).size = 0
  · rw [if_pos (Or.inr hempty)]
    rw [if_pos (show Mem.read32 L.obj.image (headerAt L i + 20) = 0 from hempty)] at hr
    cases hr
    rfl
  rw [if_neg (not_or.2 ⟨hnull, hempty⟩)]
  rw [if_neg (show ¬ Mem.read32 L.obj.image (headerAt L i + 20) = 0 from hempty),
    K.bind_eq_ok] at hr
  obtain ⟨⟨m₁, e₁⟩, _, hr⟩ := hr
  simp only [K.bind_eq_ok] at hr
  obtain ⟨type, h₁, align, h₂, off, h₃, size, h₄, flags, h₅, hr⟩ := hr
  cases hr
  rw [hfield' _ (by norm_num)] at h₁ h₂ h₃ h₄ h₅
  cases h₁
  cases h₂
  cases h₃
  cases h₄
  cases h₅
  rfl

theorem heapCall_lmm {as : List HeapEffect} (hr : heapCall m e as = .ok (m', e')) :
    m'.lmm = m.lmm := by
  unfold heapCall at hr
  rw [K.bind_eq_ok] at hr
  obtain ⟨_, _, hr⟩ := hr
  cases hr
  rfl

theorem stage0Sections_held {calls : LoadCalls} {o : Object} (himg : o.image = bytesOf m₀)
    (hout : ∀ v, own v → ¬ Mm.HeapWindow v) (hcalls : ∀ i, ∀ a ∈ calls.sections i, a.InHeap) :
    ∀ {is : List ℕ} {m : ModuleSpace} {e : ℕ} {L : Layout}, L.obj = o →
      m.Inv res ext (withHeap own e) rs → HeapEndOk e → Spares ext m₀ m →
      (∀ i ∈ is, ∀ x, Bytes (headerAt (Layout.new o) i) 40 x → Safe ext m₀ x) →
      stage0Sections calls is m e L = .ok (m', e', L') →
      Spares ext m₀ m' ∧ m'.lmm = m.lmm ∧
        L' = is.foldl (fun L i => Linker.stage0Section L i (o.secHdr i)) L := by
  intro is
  induction is with
  | nil => intro m e L _ _ _ hsp _ hr; cases hr; exact ⟨hsp, rfl, rfl⟩
  | cons i is ih =>
    intro m e L hobj h he hsp hsafe hr
    obtain ⟨hi, hsafe⟩ := List.forall_mem_cons.1 hsafe
    rw [stage0Sections, K.bind_eq_ok] at hr
    obtain ⟨⟨m₁, e₁, L₁⟩, h₁, hr⟩ := hr
    obtain ⟨hsp₁, hlmm⟩ : Spares ext m₀ m₁ ∧ m₁.lmm = m.lmm := by
      rcases stage0Section_cases h₁ with ⟨rfl, _⟩ | ⟨hc, _⟩
      · exact ⟨hsp, rfl⟩
      · exact ⟨hsp.trans (spares_heapCall h he hout (hcalls i) hc), heapCall_lmm hc⟩
    have hat : headerAt (Layout.new o) i = headerAt L i := by
      unfold headerAt
      rw [hobj]
      rfl
    rw [hat] at hi
    have hL₁ : L₁ = Linker.stage0Section L i (o.secHdr i) := by
      rw [← hobj]
      exact stage0Section_known (by rw [hobj, himg]) (fun x hx => hsp.known (hi x hx))
        (fun x hx => hsp₁.known (hi x hx)) h₁
    obtain ⟨hmove, hadd⟩ := stage0Section_spec h he hout h₁
    have hobj₁ : L₁.obj = o := by
      rcases hadd with rfl | ⟨wh, s, rfl⟩
      · exact hobj
      · rw [Layout.obj_append, hobj]
    rw [List.foldl_cons, ← hL₁, ← hlmm]
    exact ih hobj₁ hmove.space hmove.heap hsp₁ hsafe hr

/-- **`stage0`** of an object out of reach. -/
theorem stage0_held {calls : LoadCalls} {o : Object} {ok : Bool} (himg : o.image = bytesOf m)
    (h : m.Inv res ext (withHeap own e) rs) (he : HeapEndOk e)
    (hout : ∀ v, own v → ¬ Mm.HeapWindow v) (hmap : ∀ a ∈ calls.map, a.InHeap)
    (hcalls : ∀ i, ∀ a ∈ calls.sections i, a.InHeap) (hsafe : ∀ x, LoadReads o x → Safe ext m x)
    (hr : stage0 calls m e (Layout.new o) = .ok (m', e', L', ok)) :
    Spares ext m m' ∧ m'.lmm = m.lmm ∧ Linker.stage0 (Layout.new o) = (L', ok) := by
  unfold stage0 at hr
  unfold Linker.stage0
  dsimp only at hr ⊢
  by_cases h0 : o.headerOffset o.shoff.toNat = 0 ∨ o.secHdrsNum = 0
  · rw [if_pos (show (Layout.new o).obj.headerOffset (Layout.new o).obj.shoff.toNat = 0 ∨
      (Layout.new o).obj.secHdrsNum = 0 from h0)] at hr ⊢
    cases hr
    exact ⟨.refl _ _, rfl, rfl⟩
  rw [if_neg (show ¬ ((Layout.new o).obj.headerOffset (Layout.new o).obj.shoff.toNat = 0 ∨
    (Layout.new o).obj.secHdrsNum = 0) from h0)] at hr ⊢
  simp only [K.bind_eq_ok] at hr
  obtain ⟨⟨m₁, e₁⟩, hc, ⟨m₂, e₂, L₂⟩, hs, hr⟩ := hr
  cases hr
  have hmove := heapCall_spec h he hout hc
  obtain ⟨hsp, hlmm, hL⟩ := stage0Sections_held himg hout hcalls rfl hmove.space hmove.heap
    (spares_heapCall h he hout hmap hc)
    (fun i hi x hx => hsafe x (.header (List.mem_range.1 hi) hx)) hs
  rw [hL]
  exact ⟨hsp, hlmm.trans (heapCall_lmm hc), rfl⟩

/-! ## Copying -/

variable {wh : Which}

/-- Bytes out of reach are copied as they were. -/
theorem copyBytes_held (h : m.Inv res ext own rs) (hsp : Spares ext m₀ m) {dst src : ℕ}
    {f : ℕ → UInt8} : ∀ {n : ℕ}, 0xA000000 ≤ dst → dst + n ≤ 0xA080000 →
      (∀ k < n, Safe ext m₀ ((src + k) % 4294967296) ∧
        f k = bytesOf m₀ ((src + k) % 4294967296)) →
      m.mm.vmm.copyBytes dst src n = m.mm.vmm.writeBytes dst f n := by
  intro n
  induction n with
  | zero => intro _ _ _; rfl
  | succ n ih =>
    intro hlo hhi hsafe
    rw [Vmm.copyBytes, Vmm.writeBytes, ih hlo (by omega) fun k hk => hsafe k (by omega)]
    cases hw : m.mm.vmm.writeBytes dst f n with
    | error => rfl
    | ok vmm =>
      obtain ⟨hx, hf⟩ := hsafe n (by omega)
      have hread : vmm.readByte (Word32.add src n) = .ok (f n) := by
        rw [hf]
        exact (hsp.trans (spares_writeBytes h (by omega) (by omega) hw)).known hx
      show (vmm.readByte (Word32.add src n) >>= _) = _
      rw [hread]
      rfl

/-- What a section is copied from is out of reach. -/
def Sourced (ext : ℕ → Prop) (m₀ : ModuleSpace) (o : Object) (sec : Section) : Prop :=
  sec.kind = .progbits →
    ∀ k < sec.size, Safe ext m₀ ((o.headerOffset sec.fileOff + k) % 4294967296)

theorem fill_held (h : m.Inv res ext own rs) (hsp : Spares ext m₀ m)
    (himg : L.obj.image = bytesOf m₀) {sec : Section} (hsrc : Sourced ext m₀ L.obj sec) {dst : ℕ}
    (hlo : 0xA000000 ≤ dst) (hhi : dst + sec.size ≤ 0xA080000) :
    fill m.mm.vmm L.obj sec dst = m.mm.vmm.writeBytes dst (contents L.obj sec) sec.size := by
  unfold fill
  cases hk : sec.kind with
  | progbits =>
    refine copyBytes_held h hsp hlo hhi fun k hlt => ⟨hsrc hk k hlt, ?_⟩
    unfold contents
    rw [hk, ← himg]
    rfl
  | nobits =>
    have hzero : contents L.obj sec = fun _ => 0 := by
      funext k
      unfold contents
      rw [hk]
    rw [hzero]
  | unknown =>
    have hzero : contents L.obj sec = fun _ => 0 := by
      funext k
      unfold contents
      rw [hk]
    rw [hzero]

/-- **The loop of `stage1`.** -/
theorem copySections_held (hok : (L.region wh).Ok) (hb : (L.region wh).base ≠ 0)
    (hs : (L.region wh).size ≠ 0) (himg : L.obj.image = bytesOf m₀) {ok : Bool} :
    ∀ {secs : List Section} {m : ModuleSpace}, m.Inv res ext own ((L.region wh).runs ++ rs) →
      Spares ext m₀ m → (∀ sec ∈ secs, Sourced ext m₀ L.obj sec) →
      (LiveLinker.copySections L wh secs m).result = .ok (m', ok) →
      Spares ext m₀ m' ∧ (Linker.copySections L wh secs m).result = .ok (m', ok) := by
  intro secs
  induction secs with
  | nil => intro m _ hsp _ hr; cases hr; exact ⟨hsp, rfl⟩
  | cons sec secs ih =>
    intro m h hsp hsrc hr
    obtain ⟨hsec, hsrc⟩ := List.forall_mem_cons.1 hsrc
    rw [LiveLinker.copySections] at hr
    rw [Linker.copySections]
    by_cases hc : copyable L wh sec = true
    · rw [hc, Bool.not_true, if_neg Bool.false_ne_true] at hr ⊢
      obtain ⟨hdst, hlo, hhi⟩ := copy_bounds h hok hb hs hc
      simp only [Traced.result_bind, Traced.result_lift] at hr ⊢
      obtain ⟨u, hu, vmm, hw, hr⟩ := hr
      have hsame := same_copy h hok hb hs hc hw
      rw [hdst, fill_held h hsp himg hsec (by omega) hhi] at hw
      obtain ⟨hsp', hr'⟩ := ih (h.of_same hsame)
        (hsp.trans (spares_writeBytes h (by omega) (by omega) hw)) hsrc hr
      exact ⟨hsp', u, rfl, vmm, by rw [hdst]; exact hw, hr'⟩
    · rw [Bool.not_eq_true] at hc
      rw [hc, Bool.not_false, if_pos rfl] at hr ⊢
      cases hr
      exact ⟨hsp, rfl⟩

/-- **`stage1`** of an object out of reach. -/
theorem stage1_held {l : Linker} {ok : Bool} (hl : Loading res ext own l m L)
    (hsize : (L.region wh).size % 4096 = 0) (himg : L.obj.image = bytesOf m₀)
    (hsp : Spares ext m₀ m) (hsrc : ∀ sec ∈ (L.region wh).sections, Sourced ext m₀ L.obj sec)
    (hr : (LiveLinker.stage1 m L wh).result = .ok (m', L', ok)) :
    Spares ext m₀ m' ∧ (Linker.stage1 m L wh).result = .ok (m', L', ok) := by
  unfold LiveLinker.stage1 at hr
  unfold Linker.stage1
  dsimp only at hr ⊢
  by_cases h0 : (L.region wh).size = 0
  · rw [if_pos h0] at hr ⊢
    cases hr
    exact ⟨hsp, rfl⟩
  rw [if_neg h0] at hr ⊢
  rw [Traced.result_bind, Traced.result_lift] at hr ⊢
  obtain ⟨⟨m₁, base⟩, hmap, hr⟩ := hr
  obtain ⟨b, rfl, hb, hok, hinv, _, _⟩ := mapRegion_spec hl.space hsize h0 hmap
  have hreg : (L.withBase wh b).region wh = { L.region wh with base := b } :=
    Layout.region_setRegion _ _ _
  have hsp₁ : Spares ext m m₁ := spares_mapRegion hl.space (by unfold pageSize; omega) hmap
  dsimp only at hr
  rw [Traced.result_bind] at hr
  obtain ⟨⟨m₂, ok₂⟩, hcopy, hr⟩ := hr
  cases hr
  have hobj : (L.withBase wh b).obj = L.obj := by cases wh <;> rfl
  obtain ⟨hsp₂, hcopy'⟩ := copySections_held (L := L.withBase wh b) hok
    (by rw [hreg]; exact hb) (by rw [hreg]; exact h0) (by rw [hobj]; exact himg) hinv
    (hsp.trans hsp₁) (by rw [hobj]; exact hsrc) hcopy
  refine ⟨hsp₂, _, hmap, ?_⟩
  dsimp only
  rw [Traced.result_bind]
  exact ⟨_, hcopy', rfl⟩

/-! ## Relocating -/

theorem relocateEntries_append {es' : List Patch} : ∀ {es : List Patch}
    {m : ModuleSpace}, (relocateEntries tab L (es ++ es') m).result = .ok (m', true) →
      ∃ m₁, (relocateEntries tab L es m).result = .ok (m₁, true) ∧
        (relocateEntries tab L es' m₁).result = .ok (m', true) := by
  intro es
  induction es with
  | nil => intro m hr; exact ⟨m, rfl, hr⟩
  | cons e es ih =>
    intro m hr
    rw [List.cons_append, relocateEntries, Traced.result_bind] at hr
    obtain ⟨⟨m₂, ok⟩, h₂, hr⟩ := hr
    cases ok with
    | false => cases hr
    | true =>
      obtain ⟨m₁, h₁, hr⟩ := ih hr
      refine ⟨m₁, ?_, hr⟩
      rw [relocateEntries, Traced.result_bind]
      exact ⟨(m₂, true), h₂, h₁⟩

/-- The entries for one section are those of the inner loop. -/
theorem relocateEntries_map (sec : Section) : ∀ (rs : List Rel) (m : ModuleSpace),
    relocateEntries tab L (rs.map fun r => ⟨wh, sec, r⟩) m =
      Linker.relocateAll tab L wh sec rs m := by
  intro rs
  induction rs with
  | nil => intro m; rfl
  | cons r rs ih =>
    intro m
    rw [List.map_cons, relocateEntries, Linker.relocateAll]
    simp only [ih]

/-- Where no header is an error, the two loops are one loop over the entries. -/
theorem relocateSections_of_entries : ∀ {hs : List SectionHeader} {m : ModuleSpace},
    (∀ h ∈ hs, Linker.relTarget L h ≠ .fail) →
      (relocateEntries tab L (entries L hs) m).result = .ok (m', true) →
        (Linker.relocateSections tab L hs m).result = .ok (m', true) := by
  intro hs
  induction hs with
  | nil => intro m _ hr; exact hr
  | cons h hs ih =>
    intro m htargets hr
    obtain ⟨hne, htargets⟩ := List.forall_mem_cons.1 htargets
    unfold entries at hr
    rw [List.flatMap_cons] at hr
    obtain ⟨m₁, h₁, hr⟩ := relocateEntries_append hr
    rw [Linker.relocateSections]
    cases ht : Linker.relTarget L h with
    | fail => exact absurd ht hne
    | skip =>
      rw [ht] at h₁
      cases h₁
      exact ih htargets hr
    | apply wh sec =>
      rw [ht] at h₁
      dsimp only at h₁ ⊢
      rw [relocateEntries_map] at h₁
      rw [Traced.result_bind]
      exact ⟨(m₁, true), h₁, ih htargets hr⟩

theorem heldIn_eq (himg : L.obj.image = bytesOf m₀) : heldIn m₀ L = L := by
  obtain ⟨⟨image, hdr, shoff, num, symtab, strtab, dynsym, dynstr⟩, rx, rw, map⟩ := L
  cases himg
  rfl

/-- **`stage2`** of an object out of reach. -/
theorem stage2_held {l : Linker} (hl : Loading res ext own l m L) (hfits : MapFits L)
    (himg : L.obj.image = bytesOf m₀) (hsp : Spares ext m₀ m)
    (hsafe : ∀ x, ObjectReads L x → Safe ext m₀ x)
    (hr : (LiveLinker.stage2 tab m L).result = .ok (m', true)) :
    (Linker.stage2 tab m L).result = .ok (m', true) := by
  have hheld := heldIn_eq himg
  have hreading : Reading tab m₀ L fun m' =>
      Spares ext m₀ m' ∧ m'.Inv res ext own (L.runs ++ runs l.layouts) := by
    refine ⟨fun h x hx => ?_, fun {m' m'' e} h he hr => ?_⟩
    · rw [hheld] at hx
      exact (h.1 x (hsafe x hx)).2
    · rw [he.relocate_eq fun x hx => (h.1 x (hsafe x (by rw [← hheld]; exact hx))).2] at hr
      obtain ⟨hsp', hinv⟩ := h
      rcases relocate_writes (e := e.patch (heldIn m₀ L)) hr with
        rfl | ⟨S, w, vmm, _, hsz, hw, rfl⟩
      · exact ⟨hsp', hinv⟩
      obtain ⟨hd, _, htarget, _⟩ := mem_located.1 he.mem
      rw [hheld] at htarget hw hsz
      obtain ⟨hmap, hb⟩ := Linker.relTarget_apply htarget
      have hlt : (e.patch L).rel.offset < 4294967296 := Mem.read32_lt _ _
      obtain ⟨hlo, hhi⟩ : 0x9FFFFFC ≤ (e.patch L).addr L ∧ (e.patch L).addr L + 4 ≤ 0xA080000 :=
        patch_bounds (hfits _ _ _ hmap hb) hlt hsz
      have hsame := same_writeBytes hinv (by omega) (by omega) hw
      exact ⟨hsp'.trans (spares_writeBytes hinv (by omega) hhi hw), hinv.of_same hsame⟩
  obtain ⟨hleg, heach, _, htargets⟩ := hreading.relocateSections ⟨hsp, hl.space⟩
    (fun i hi => List.mem_range.1 hi) hr
  rw [hreading.relocateEach_eq ⟨hsp, hl.space⟩ hleg, hheld, locatedOf_range,
    ← entries_eq_map] at heach
  rw [hheld] at htargets
  refine relocateSections_of_entries (fun h hh => ?_) heach
  obtain ⟨i, hi, rfl⟩ := List.mem_map.1 hh
  exact htargets i hi

/-! ## The load -/

variable {s s' : LiveLinker} {o : Object} {calls : LoadCalls} {i : ℕ}

/-- A load that succeeds. -/
theorem staged_of_load (hr : (LiveLinker.load tab calls s (some o)).result = .ok (s', some i)) :
    ∃ m L layouts, Staged s calls o m L ∧
      (LiveLinker.stage2 tab m L).result = .ok (s'.linker.space, true) ∧
      s.linker.layouts.emplace (Layout.new o) = .ok (layouts, i) ∧
      s'.linker.layouts = layouts.modify i fun _ => L := by
  have habort : ∀ {m e layouts j L release} {r : LiveLinker × Option ℕ},
      LiveLinker.abort m e layouts j L release = .ok r → r.2 = none := by
    intro m e layouts j L release r ha
    unfold LiveLinker.abort at ha
    rw [K.bind_eq_ok] at ha
    obtain ⟨s₁, _, ha⟩ := ha
    cases ha
    rfl
  rw [LiveLinker.load, Traced.result_bind, Traced.result_lift] at hr
  obtain ⟨⟨layouts, j⟩, hi, hr⟩ := hr
  rw [Traced.result_bind, Traced.result_lift] at hr
  obtain ⟨⟨m₀, e₀, P, ok₀⟩, hs₀, hr⟩ := hr
  dsimp only at hr
  cases ok₀ with
  | false => cases habort hr
  | true =>
    rw [Bool.not_true, if_neg Bool.false_ne_true, Traced.result_bind] at hr
    obtain ⟨⟨m₁, L₁, ok₁⟩, h₁, hr⟩ := hr
    dsimp only at hr
    cases ok₁ with
    | false => cases habort hr
    | true =>
      rw [Bool.not_true, if_neg Bool.false_ne_true, Traced.result_bind] at hr
      obtain ⟨⟨m₂, L₂, ok₂⟩, h₂, hr⟩ := hr
      dsimp only at hr
      cases ok₂ with
      | false => cases habort hr
      | true =>
        rw [Bool.not_true, if_neg Bool.false_ne_true, Traced.result_bind] at hr
        obtain ⟨⟨m₃, ok₃⟩, h₃, hr⟩ := hr
        dsimp only at hr
        cases ok₃ with
        | false => cases habort hr
        | true =>
          rw [Bool.not_true, if_neg Bool.false_ne_true] at hr
          cases hr
          exact ⟨m₂, L₂, layouts, ⟨m₀, e₀, P, m₁, L₁, hs₀, h₁, h₂⟩, h₃, hi, rfl⟩

/-- The calls of the heap in a load store on pages that the heap can have. -/
def LoadCalls.InHeap (calls : LoadCalls) : Prop :=
  (∀ a ∈ calls.map, a.InHeap) ∧ ∀ i, ∀ a ∈ calls.sections i, a.InHeap

/-- The sections that `stage0` plans are copied from what the object has. -/
theorem sourced_of_stage0 (hs : Linker.stage0 (Layout.new o) = (L, true))
    (hsafe : ∀ x, LoadReads o x → Safe ext m x) (wh : Which) :
    ∀ sec ∈ (L.region wh).sections, Sourced ext m o sec := by
  intro sec hsec hkind k hk
  have hplan : plan o = L := by
    unfold plan
    rw [hs]
  rw [← hplan, (plan_spec (by rw [hs])).2.1 wh] at hsec
  obtain ⟨i, hi, rfl⟩ := List.mem_map.1 hsec
  have hi := List.mem_range.1 (List.mem_filter.1 hi).1
  have htype : (o.secHdr i).type = shtProgbits := by
    by_contra hne
    have hk' : (if (o.secHdr i).type = shtProgbits then SecKind.progbits
        else if (o.secHdr i).type = shtNobits then .nobits else .unknown) = .progbits := hkind
    rw [if_neg hne] at hk'
    split_ifs at hk'
  exact hsafe _ (.contents hi htype ⟨k, hk, rfl⟩)

/-- **The stages** of an object out of reach, in memory that only the heap has changed. -/
theorem Staged.held (hs : Staged s calls o m L)
    (h : s.linker.space.Inv res ext (withHeap own s.heapEnd) (runs s.linker.layouts))
    (he : HeapEndOk s.heapEnd) (hout : ∀ v, own v → ¬ Mm.HeapWindow v) (hcalls : calls.InHeap)
    (himg : o.image = bytesOf s.linker.space)
    (hsafe : ∀ x, LoadReads o x → Safe ext s.linker.space x) :
    ∃ m₀ e₀, Moved res ext own (runs s.linker.layouts) s.linker.space m₀ e₀ ∧
      m₀.lmm = s.linker.space.lmm ∧ Linker.Staged ⟨m₀, s.linker.layouts⟩ o m L ∧ L.obj = o ∧
      Spares ext s.linker.space m := by
  obtain ⟨m₀, e₀, P, m₁, L₁, hs₀, h₁, h₂⟩ := hs
  obtain ⟨hsp₀, hlmm, hplan⟩ := stage0_held himg h he hout hcalls.1 hcalls.2 hsafe hs₀
  obtain ⟨hmove, hp, hP, hl₀, hsize⟩ := loading_of_stage0 h he hout hs₀
  have hobj : P.obj = o := (stage0_spec h he hout hs₀).2.2.1
  have hsrc : ∀ b wh, ∀ sec ∈ ((P.withBases b).region wh).sections,
      Sourced ext s.linker.space (P.withBases b).obj sec := by
    intro b wh sec hsec
    rw [Layout.region_withBases] at hsec
    show Sourced ext s.linker.space P.obj sec
    rw [hobj]
    exact sourced_of_stage0 hplan hsafe wh sec hsec
  have himg' : P.obj.image = bytesOf s.linker.space := by rw [hobj, himg]
  have hsize' : ∀ b wh, ((P.withBases b).region wh).size % 4096 = 0 := fun b wh => by
    rw [Layout.region_withBases]
    exact hsize rfl wh
  rw [hP] at h₁
  obtain ⟨hsp₁, h₁'⟩ := stage1_held hl₀ (hsize' _ _) himg' hsp₀ (hsrc _ _) h₁
  obtain ⟨x, rfl, hl₁, _⟩ := (stage1_bases hl₀ rfl (hsize rfl .rx)).value _ h₁
  rw [update_rx] at h₁' h₂ hl₁
  obtain ⟨hsp₂, h₂'⟩ := stage1_held hl₁ (hsize' _ _) himg' hsp₁ (hsrc _ _) h₂
  obtain ⟨y, rfl, _, _⟩ := (stage1_bases hl₁ rfl (hsize rfl .rw)).value _ h₂
  rw [← hP] at h₁'
  exact ⟨m₀, e₀, hmove, hlmm, ⟨P, m₁, _, hplan, h₁', h₂'⟩, hobj, hsp₂⟩

/-- **Loading** an object out of reach is what `Linker` does with it, in memory that only the heap
has changed. -/
theorem load_held
    (h : s.linker.space.Inv res ext (withHeap own s.heapEnd) (runs s.linker.layouts))
    (he : HeapEndOk s.heapEnd) (hout : ∀ v, own v → ¬ Mm.HeapWindow v) (hcalls : calls.InHeap)
    (himg : o.image = bytesOf s.linker.space)
    (hsafe : ∀ x, LoadReads o x → Safe ext s.linker.space x)
    (hr : (LiveLinker.load tab calls s (some o)).result = .ok (s', some i)) :
    ∃ m₀ e₀, Moved res ext own (runs s.linker.layouts) s.linker.space m₀ e₀ ∧
      m₀.lmm = s.linker.space.lmm ∧
      (Linker.load tab ⟨m₀, s.linker.layouts⟩ (some o)).result = .ok (s'.linker, some i) := by
  obtain ⟨m, L, layouts, hs, h₃, hi, hlayouts⟩ := staged_of_load hr
  obtain ⟨m₁, e₁, hprep⟩ := hs.prepared h he hout
  obtain ⟨m₀, e₀, hmove, hlmm, ⟨P, m₂, L₁, hs₀, h₁, h₂⟩, hobj, hsp⟩ :=
    hs.held h he hout hcalls himg hsafe
  have h₃' := stage2_held hprep.loading hprep.fits (by rw [hobj, himg]) hsp
    (fun x hx => hsafe x (.relocation hobj hx)) h₃
  refine ⟨m₀, e₀, hmove, hlmm, ?_⟩
  obtain ⟨⟨space, layouts'⟩, heapEnd⟩ := s'
  cases hlayouts
  rw [Linker.load, Traced.result_bind, Traced.result_lift]
  refine ⟨(layouts, i), hi, ?_⟩
  rw [hs₀]
  dsimp only
  rw [Bool.not_true, if_neg Bool.false_ne_true, Traced.result_bind]
  refine ⟨_, h₁, ?_⟩
  dsimp only
  rw [Bool.not_true, if_neg Bool.false_ne_true, Traced.result_bind]
  refine ⟨_, h₂, ?_⟩
  dsimp only
  rw [Bool.not_true, if_neg Bool.false_ne_true, Traced.result_bind]
  exact ⟨_, h₃', rfl⟩

end

/-! ## From any state that the linker can reach -/

/-- The byte at `x` lies in a frame that is in use and no page table, and no page that a load writes
leads to it. -/
def Aside (s : LiveLinker) (x : ℕ) : Prop :=
  x / 4096 / 1024 < 1023 ∧ ∃ f, s.linker.space.mm.mapped (x / 4096) = some f ∧
    s.linker.space.mm.pmm.used f = true ∧ ¬ s.linker.space.mm.IsTable f ∧
    ∀ v, Reach v → s.linker.space.mm.mapped v ≠ some f

section

variable {tab : List KexpEntry} {s₀ s s' : LiveLinker} {o : Object} {calls : LoadCalls} {i : ℕ}
  {m : ModuleSpace} {L : Layout}

/-- Whatever is not of the heap or of a layout belongs to others. -/
theorem Inv.disown {res ext own : ℕ → Prop} (h : Inv res ext own s₀ s) :
    ∃ res' ext', s.linker.space.Inv res' ext' (withHeap (fun _ => False) s.heapEnd)
      (runs s.linker.layouts) ∧ ∀ x, s.Aside x → Safe ext' s.linker.space x := by
  have hsub : ∀ v, (withHeap (fun _ => False) s.heapEnd v ∨ ∃ r ∈ runs s.linker.layouts, r.Has v) →
      withHeap own s.heapEnd v ∨ ∃ r ∈ runs s.linker.layouts, r.Has v :=
    fun v => Or.imp_left (Or.imp_left False.elim)
  refine ⟨_, _, ⟨h.space.owned.disown hsub, fun v hv => h.space.outside v (hv.imp_left False.elim),
    h.space.bits, h.space.fits, h.space.disjoint, Or.inl h.space.zero⟩, ?_⟩
  rintro x ⟨hlow, f, hm, hused, htable, hfree⟩
  refine ⟨hlow, f, hm, ?_, hfree⟩
  rcases h.space.owned.exact f hused with hf | hf | hf | ⟨v, hv, hmv⟩
  · exact Or.inl hf
  · exact absurd (Or.inl hf) htable
  · exact absurd (Or.inr hf) htable
  · refine Or.inr ⟨v, hv, fun hv' => ?_, hmv⟩
    rcases hv' with (hv' | hv') | hv'
    · exact hv'
    · exact hfree v (Or.inl (Mm.HeapWindow.of_has h.heap hv')) hmv
    · exact hfree v (.of_window (window_of_has h.space hv')) hmv

/-- **Placement in live memory**, of an object that lies aside. -/
theorem placed_aside (h₀ : Init s₀) {as : List Act} (hrun : Run (Step tab) s₀ as s)
    (hcalls : calls.InHeap) (himg : o.image = bytesOf s.linker.space)
    (hreads : ∀ x, LoadReads o x → s.Aside x)
    (hr : (LiveLinker.load tab calls s (some o)).result = .ok (s', some i))
    (hL : s'.linker.layouts.ptr i = some L) :
    WellPlaced s'.linker o i L ↔ Placeable s.linker o := by
  obtain ⟨_, _, _, hout, _, hI₀⟩ := inv_init h₀
  have hI := inv_run hout hI₀ hrun
  obtain ⟨res, ext, hinv, hsafe⟩ := hI.disown
  obtain ⟨m₀, e₀, hmove, hlmm, hr'⟩ := load_held hinv hI.heap (fun _ hf => False.elim hf) hcalls
    himg (fun x hx => hsafe x (hreads x hx)) hr
  rw [wellPlaced_iff (s := ⟨m₀, s.linker.layouts⟩) hmove.space hI.ok hr' hL]
  exact ⟨fun h => h.congr hlmm.symm, fun h => h.congr hlmm⟩

/-- **The image in live memory**, of an object that lies aside. -/
theorem inMemory_aside (h₀ : Init s₀) {as : List Act} (hrun : Run (Step tab) s₀ as s)
    (hcalls : calls.InHeap) (himg : o.image = bytesOf s.linker.space)
    (hreads : ∀ x, LoadReads o x → s.Aside x) (hs : Staged s calls o m L) :
    InMemory o m L ↔ Copied o := by
  obtain ⟨_, _, _, hout, _, hI₀⟩ := inv_init h₀
  have hI := inv_run hout hI₀ hrun
  obtain ⟨res, ext, hinv, hsafe⟩ := hI.disown
  obtain ⟨m₀, e₀, hmove, _, hs', _, _⟩ := hs.held hinv hI.heap (fun _ hf => False.elim hf) hcalls
    himg fun x hx => hsafe x (hreads x hx)
  exact (hs'.ready hmove.space).inMemory_iff hs'.stage0_ok

end

end LiveLinker

end Ospp
