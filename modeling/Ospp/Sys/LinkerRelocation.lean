import Ospp.Sys.Kexp
import Ospp.Sys.LinkerStages

/-!
# What relocations do

The entries that `stage2` goes through, one after the other; every entry reads the word it changes.
Where the patched words have no byte in common, each of them is changed once, from the word `stage1`
has put there, and the order of the entries does not matter: what the entries do to the bytes of the
module window is `Fixup.applyAll`.

Here the entries and the symbols are those of an object that stays as it is. What that takes is said
where `stage2` reads them from memory.
-/

namespace Ospp

namespace Linker

open Trans

/-! ## Statements -/

/-- The entries of the relocation sections that `stage2` goes through, in order. -/
def entries (L : Layout) (hs : List SectionHeader) : List Patch :=
  hs.flatMap fun h =>
    match relTarget L h with
    | .apply wh sec => (L.obj.rels h).map (Patch.mk wh sec)
    | _ => []

/-- Entries one after the other, as the two loops of `stage2` take them. -/
def relocateEntries (tab : List KexpEntry) (L : Layout) : List Patch → ModuleSpace →
    Traced Write Halt (ModuleSpace × Bool)
  | [], m => pure (m, true)
  | e :: es, m => do
    let (m, ok) ← relocate tab L e.which e.sec e.rel m
    if ok then relocateEntries tab L es m else pure (m, false)

/-- The address of the name of a symbol. -/
def symbolName (L : Layout) (sym : Symbol) : ℕ :=
  Word32.add (L.obj.headerOffset (L.obj.sectionHeader L.obj.strtab.toNat).offset) sym.name

/-- The run-time address of a symbol that is absolute, defined in a loaded section, or undefined
and provided by the kernel: `E` gives the address for the name at an address. -/
inductive SymbolAddr (E : ℕ → ℕ → Prop) (L : Layout) (sym : Symbol) : ℕ → Prop where
  | absolute (h : sym.shndx = shnAbs) : SymbolAddr E L sym sym.value
  | loaded {wh : Which} {sec : Section} (hu : sym.shndx ≠ shnUndef) (ha : sym.shndx ≠ shnAbs)
      (hc : sym.shndx ≠ shnCommon) (hn : sym.shndx < L.obj.secHdrsNum.toNat)
      (hmap : L.map sym.shndx = some (wh, sec)) (hb : (L.region wh).base ≠ 0) :
      SymbolAddr E L sym (Word32.add (Word32.add (L.region wh).base sec.regOff) sym.value)
  | kernel {S : ℕ} (hu : sym.shndx = shnUndef) (hS : E (symbolName L sym) S) :
      SymbolAddr E L sym S

/-- The symbol of an entry has the run-time address `S`. -/
def EntryAddr (E : ℕ → ℕ → Prop) (L : Layout) (e : Patch) (S : ℕ) : Prop :=
  ∃ sym, L.obj.symbolByIndex e.rel.sym = some sym ∧ SymbolAddr E L sym S

/-- The entry is of a type that is supported, and its symbol has an address: `P` is patched. -/
def Patches (E : ℕ → ℕ → Prop) (L : Layout) (e : Patch) (S : ℕ) : Prop :=
  EntryAddr E L e S ∧ (e.rel.type = r386_32 ∨ e.rel.type = r386_PC32)

/-- The address `P` of an entry. -/
def Patch.addr (e : Patch) (L : Layout) : ℕ := patchAddr L e.which e.sec e.rel

/-- The words that are patched have no byte in common. -/
def WordsApart (E : ℕ → ℕ → Prop) (L : Layout) : Prop :=
  (entries L L.obj.secHdrs).Pairwise fun e e' =>
    (∃ S, Patches E L e S) → (∃ S, Patches E L e' S) →
      e.addr L + 4 ≤ e'.addr L ∨ e'.addr L + 4 ≤ e.addr L

/-- Every patched word is `S + A` or `S + A - P`, and every other byte on the pages of the layouts
is unchanged. -/
structure Relocated (E : ℕ → ℕ → Prop) (s : Linker) (L : Layout) (m m' : ModuleSpace) : Prop where
  words : ∀ e ∈ entries L L.obj.secHdrs, ∀ S, Patches E L e S → ∃ A w : ℕ,
    m.mm.vmm.read32 (e.addr L) = .ok A ∧ m'.mm.vmm.read32 (e.addr L) = .ok w ∧
    (e.rel.type = r386_32 → (w : ℤ) = (S + A) % 4294967296) ∧
    (e.rel.type = r386_PC32 → (w : ℤ) = (S + A - e.addr L) % 4294967296)
  others : ∀ x, In (L.runs ++ runs s.layouts) (x / 4096) →
    (∀ e ∈ entries L L.obj.secHdrs, ∀ S, Patches E L e S → x < e.addr L ∨ e.addr L + 4 ≤ x) →
    m'.mm.vmm.readByte x = m.mm.vmm.readByte x

/-- The two states have the same tables, and the same bytes on the pages of the layouts. -/
structure SameMemory (s : Linker) (L : Layout) (m m' : ModuleSpace) : Prop where
  lmm : m'.lmm = m.lmm
  tables : Mm.SameTables m.mm m'.mm
  bytes : ∀ x, In (L.runs ++ runs s.layouts) (x / 4096) →
    m'.mm.vmm.readByte x = m.mm.vmm.readByte x

/-- What `kexp::lookup` finds for a name. -/
def Found (tab : List KexpEntry) (image : Mem) (name S : ℕ) : Prop :=
  ∃ e, kexpLookup tab image name = .ok (some e) ∧ e.addr = S

/-- What the kernel exports under a name. -/
def Exported (es : List Export) (image : Mem) (name S : ℕ) : Prop :=
  ∃ e ∈ es, HoldsString image name e.name.bytes ∧ e.addr.toNat = S

/-! ## One loop -/

section

variable {tab : List KexpEntry} {L : Layout} {m m' : ModuleSpace}

/-- Entries that have all been gone through have not failed. -/
theorem outcome_of_relocateEntries : ∀ {es : List Patch} {m : ModuleSpace},
    (relocateEntries tab L es m).result = .ok (m', true) →
      ∀ e ∈ es, outcome tab L e.sec e.rel ≠ .fail := by
  intro es
  induction es with
  | nil => intro m _ e he; cases he
  | cons e es ih =>
    intro m hr
    rw [relocateEntries, Traced.result_bind] at hr
    obtain ⟨⟨m₁, ok⟩, h₁, hr⟩ := hr
    have hok := ((relocate_performs tab L e.which e.sec e.rel m).returns _ h₁).2
    dsimp only at hok
    subst hok
    refine List.forall_mem_cons.2 ⟨fun hf => ?_, ?_⟩
    · rw [hf] at hr
      cases hr
    · cases hg : (outcome tab L e.sec e.rel).good with
      | false => rw [hg] at hr; cases hr
      | true => rw [hg] at hr; exact ih hr

end

/-! ## Symbols -/

section

variable {tab : List KexpEntry} {L : Layout}

theorem SymbolAddr.resolve {sym : Symbol} {S : ℕ}
    (h : SymbolAddr (Found tab L.obj.image) L sym S) :
    resolve tab L sym = .ok (.value S) := by
  unfold Linker.resolve
  cases h with
  | absolute ha => rw [if_neg (by rw [ha]; decide), if_pos ha]
  | loaded hu ha hc hn hmap hb =>
    rw [if_neg hu, if_neg ha, if_neg hc]
    dsimp only
    rw [if_neg (by omega), hmap]
    dsimp only
    rw [if_neg hb]
  | kernel hu hS =>
    obtain ⟨e, he, rfl⟩ := hS
    rw [if_pos hu]
    exact (K.bind_eq_ok).2 ⟨some e, he, rfl⟩

theorem symbolAddr_of_resolve {sym : Symbol} {S : ℕ} (h : resolve tab L sym = .ok (.value S)) :
    SymbolAddr (Found tab L.obj.image) L sym S := by
  unfold resolve at h
  dsimp only at h
  split_ifs at h with hu ha hc hn
  · rw [K.bind_eq_ok] at h
    obtain ⟨e, he, h⟩ := h
    cases e with
    | none => cases h
    | some e =>
      cases h
      exact .kernel hu ⟨e, he, rfl⟩
  · cases h
    exact .absolute ha
  · cases h
  · cases h
  · cases hm : L.map sym.shndx with
    | none => rw [hm] at h; cases h
    | some q =>
      obtain ⟨wh, sec⟩ := q
      rw [hm] at h
      dsimp only at h
      split_ifs at h with hb
      · cases h
      · cases h
        exact .loaded hu ha hc (by omega) hm hb

/-- `resolve` gives an address to the symbols that have one, the one at run time. -/
theorem resolve_eq_value_iff {sym : Symbol} {S : ℕ} :
    resolve tab L sym = .ok (.value S) ↔ SymbolAddr (Found tab L.obj.image) L sym S :=
  ⟨symbolAddr_of_resolve, SymbolAddr.resolve⟩

/-- What an entry makes of the word at `P`, when its symbol has the address `S`. -/
def relocatedWord (L : Layout) (e : Patch) (S A : ℕ) : ℕ :=
  if e.rel.type = r386_32 then Word32.add S A else Word32.sub (Word32.add S A) (e.addr L)

/-- The address of the symbol of an entry, if it has one. -/
def entryAddr (tab : List KexpEntry) (L : Layout) (e : Patch) : Option ℕ :=
  match L.obj.symbolByIndex e.rel.sym with
  | none => none
  | some sym =>
    match resolve tab L sym with
    | .ok (.value S) => some S
    | _ => none

theorem entryAddr_eq_some {e : Patch} {S : ℕ} :
    entryAddr tab L e = some S ↔ EntryAddr (Found tab L.obj.image) L e S := by
  unfold entryAddr EntryAddr
  cases hsym : L.obj.symbolByIndex e.rel.sym with
  | none =>
    refine iff_of_false (fun h => by cases h) ?_
    rintro ⟨_, h, _⟩
    cases h
  | some sym =>
    have hiff : (match resolve tab L sym with
        | .ok (.value S) => some S
        | _ => none) = some S ↔ resolve tab L sym = .ok (.value S) := by
      split
      · next S' hr => rw [hr]; simp
      · next hr => exact iff_of_false (fun h => by cases h) fun h => hr S h
    dsimp only
    rw [hiff, resolve_eq_value_iff]
    constructor
    · intro h
      exact ⟨sym, rfl, h⟩
    · rintro ⟨sym', hs, h⟩
      cases hs
      exact h

/-- What an entry that is applied does to memory. -/
def fixup (tab : List KexpEntry) (L : Layout) (e : Patch) : Fixup :=
  ⟨e.addr L, relocatedWord L e ((entryAddr tab L e).getD 0)⟩

/-- An entry with an offset in its section is applied when it patches its word. -/
theorem outcome_eq_patch_iff {e : Patch} (hoff : e.rel.offset + 4 ≤ e.sec.size)
    (hlt : e.rel.offset + 4 < 4294967296) :
    outcome tab L e.sec e.rel = .patch ↔ ∃ S, Patches (Found tab L.obj.image) L e S := by
  have hsz : ¬ e.sec.size < Word32.add e.rel.offset 4 := by
    rw [Word32.add_eq hlt]
    omega
  unfold Patches
  simp only [← entryAddr_eq_some]
  unfold outcome entryAddr
  cases L.obj.symbolByIndex e.rel.sym with
  | none =>
    refine iff_of_false (fun h => by cases h) ?_
    rintro ⟨_, h, _⟩
    cases h
  | some sym =>
    dsimp only
    rw [if_neg hsz]
    cases resolve tab L sym with
    | error err =>
      refine iff_of_false (fun h => by cases h) ?_
      rintro ⟨_, h, _⟩
      cases h
    | ok res =>
      cases res with
      | fail =>
        refine iff_of_false (fun h => by cases h) ?_
        rintro ⟨_, h, _⟩
        cases h
      | skip =>
        refine iff_of_false (fun h => by cases h) ?_
        rintro ⟨_, h, _⟩
        cases h
      | value S =>
        dsimp only
        by_cases ht : e.rel.type = r386_32 ∨ e.rel.type = r386_PC32
        · rw [if_pos ht]
          exact iff_of_true rfl ⟨S, rfl, ht⟩
        · rw [if_neg ht]
          refine iff_of_false (fun h => by cases h) ?_
          rintro ⟨_, _, h⟩
          exact ht h

/-- An entry that is gone through writes its word, if it has an address, or nothing. -/
theorem relocate_writes {m m' : ModuleSpace} {e : Patch}
    (hr : (relocate tab L e.which e.sec e.rel m).result = .ok (m', true)) :
    m' = m ∨ ∃ S w vmm, Patches (Found tab L.obj.image) L e S ∧
      ¬ e.sec.size < Word32.add e.rel.offset 4 ∧ m.mm.vmm.write32 (e.addr L) w = .ok vmm ∧
        m' = withVmm m vmm := by
  unfold relocate at hr
  cases hsym : L.obj.symbolByIndex e.rel.sym with
  | none => rw [hsym] at hr; cases hr
  | some sym =>
    rw [hsym] at hr
    dsimp only at hr
    by_cases hsz : e.sec.size < Word32.add e.rel.offset 4
    · rw [if_pos hsz] at hr
      cases hr
    rw [if_neg hsz, Traced.result_bind] at hr
    obtain ⟨A, _, hr⟩ := hr
    rw [Traced.result_bind] at hr
    obtain ⟨res, hres, hr⟩ := hr
    rw [Traced.result_lift] at hres
    cases res with
    | fail => cases hr
    | skip => cases hr; exact Or.inl rfl
    | value S =>
      have haddr : EntryAddr (Found tab L.obj.image) L e S :=
        ⟨sym, hsym, symbolAddr_of_resolve hres⟩
      dsimp only at hr
      split_ifs at hr with h32 hpc
      · simp only [Traced.result_bind, Traced.result_lift] at hr
        obtain ⟨_, _, vmm, hw, hr⟩ := hr
        cases hr
        exact Or.inr ⟨S, _, vmm, ⟨haddr, Or.inl h32⟩, hsz, hw, rfl⟩
      · simp only [Traced.result_bind, Traced.result_lift] at hr
        obtain ⟨_, _, vmm, hw, hr⟩ := hr
        cases hr
        exact Or.inr ⟨S, _, vmm, ⟨haddr, Or.inr hpc⟩, hsz, hw, rfl⟩
      · cases hr

end

/-! ## Entries and the bytes of memory -/

section

variable {res ext own live : ℕ → Prop} {rs : List PageRun} {tab : List KexpEntry} {L : Layout}
  {m m' : ModuleSpace} {μ : ℕ → UInt8}

/-- The bytes on the pages `live`. -/
def Shows (m : ModuleSpace) (live : ℕ → Prop) (μ : ℕ → UInt8) : Prop :=
  ∀ x, live (x / 4096) → m.mm.vmm.readByte x = .ok (μ x)

theorem Shows.read32 (h : Shows m live μ) {a : ℕ} (ha : a + 4 < 4294967296)
    (hlive : ∀ k < 4, live ((a + k) / 4096)) : m.mm.vmm.read32 a = .ok (wordAt μ a) := by
  have h0 := h a (hlive 0 (by norm_num))
  unfold Vmm.read32
  rw [Word32.add_eq (by omega), Word32.add_eq (by omega), Word32.add_eq (by omega), h0,
    h _ (hlive 1 (by norm_num)), h _ (hlive 2 (by norm_num)), h _ (hlive 3 (by norm_num))]
  rfl

/-- The pages `live` belong to the account, and are mapped. -/
def LivePages (m : ModuleSpace) (own : ℕ → Prop) (rs : List PageRun) (live : ℕ → Prop) : Prop :=
  ∀ v, live v → (own v ∨ ∃ r ∈ rs, r.Has v) ∧ ∃ f, m.mm.mapped v = some f

theorem LivePages.of_same (h : LivePages m own rs live) (hinv : m.Inv res ext own rs)
    (hs : Mm.SameTables m.mm m'.mm) : LivePages m' own rs live := by
  intro v hv
  obtain ⟨ho, f, hf⟩ := h v hv
  exact ⟨ho, f, by rw [hs.mapped v (hinv.owned.own_high v ho).2, hf]⟩

/-- A word written on such pages. -/
theorem Shows.write32 (h : Shows m live μ) (hinv : m.Inv res ext own rs)
    (hlive : LivePages m own rs live) {a w : ℕ} (hlo : 0x9000000 ≤ a) (hhi : a + 4 ≤ 0xB000000)
    (ha : ∀ k < 4, live ((a + k) / 4096)) :
    ∃ vmm, m.mm.vmm.write32 a w = .ok vmm ∧ Mm.SameTables m.mm (withVmm m vmm).mm ∧
      Shows (withVmm m vmm) live ((⟨a, 4, Mem.byteOf w⟩ : Layer UInt8).put μ) := by
  obtain ⟨vmm, hw⟩ := hinv.owned.exists_writeBytes (f := Mem.byteOf w) fun k hk => hlive _ (ha k hk)
  refine ⟨vmm, hw, same_writeBytes hinv hlo hhi hw, fun x hx => ?_⟩
  have hread := hinv.owned.readByte_writeBytes (hlive _ hx).1 (fun k hk => (hlive _ (ha k hk)).1) hw
  show vmm.readByte x = _
  rw [hread, h x hx]
  by_cases hc : a ≤ x ∧ x < a + 4
  · rw [if_pos hc, Layer.put_of_covers (l := ⟨a, 4, Mem.byteOf w⟩) hc]
  · rw [if_neg hc, Layer.put_of_not_covers (l := ⟨a, 4, Mem.byteOf w⟩) hc]

/-- What an entry does to the bytes of memory. -/
def entryEffect (tab : List KexpEntry) (L : Layout) (e : Patch) (μ : ℕ → UInt8) : ℕ → UInt8 :=
  match outcome tab L e.sec e.rel with
  | .patch => (fixup tab L e).apply μ
  | _ => μ

/-- A word patched on such pages. -/
theorem Shows.patch (h : Shows m live μ) (hinv : m.Inv res ext own rs)
    (hlive : LivePages m own rs live) {e : Patch} {S w : ℕ} (haddr : entryAddr tab L e = some S)
    (hw : w = relocatedWord L e S (wordAt μ (e.addr L))) (hlo : 0x9000000 ≤ e.addr L)
    (hhi : e.addr L + 4 ≤ 0xB000000) (ha : ∀ k < 4, live ((e.addr L + k) / 4096)) :
    ∃ vmm, m.mm.vmm.write32 (e.addr L) w = .ok vmm ∧ Mm.SameTables m.mm (withVmm m vmm).mm ∧
      Shows (withVmm m vmm) live ((fixup tab L e).apply μ) := by
  have hput : (⟨e.addr L, 4, Mem.byteOf w⟩ : Layer UInt8).put μ = (fixup tab L e).apply μ := by
    unfold Fixup.apply Fixup.layer fixup
    dsimp only
    rw [haddr, hw]
    rfl
  rw [← hput]
  exact h.write32 hinv hlive hlo hhi ha

/-- **One entry.** -/
theorem relocate_shows (h : Shows m live μ) (hinv : m.Inv res ext own rs)
    (hlive : LivePages m own rs live) {e : Patch} (hfit : Fits L e.which e.sec)
    (hoff : e.rel.offset + 4 ≤ e.sec.size) (ha : ∀ k < 4, live ((e.addr L + k) / 4096))
    (ho : outcome tab L e.sec e.rel ≠ .fail) :
    ∃ m', (relocate tab L e.which e.sec e.rel m).result = .ok (m', true) ∧ m'.lmm = m.lmm ∧
      Mm.SameTables m.mm m'.mm ∧
      Shows m' live (entryEffect tab L e μ) := by
  obtain ⟨hlo, hhi, hsec⟩ := id hfit
  have hsz : ¬ e.sec.size < Word32.add e.rel.offset 4 := by
    rw [Word32.add_eq (by omega)]
    omega
  have hP : e.addr L = (L.region e.which).base + e.sec.regOff + e.rel.offset := by
    rcases patchAddr_cases hfit (by omega) hsz with ⟨_, _, h1⟩ | ⟨h1, _⟩
    · exact h1
    · omega
  have hread := h.read32 (a := e.addr L) (by omega) ha
  have hpatch : patchAddr L e.which e.sec e.rel = e.addr L := rfl
  unfold entryEffect
  obtain ⟨out, hout⟩ : ∃ out, outcome tab L e.sec e.rel = out := ⟨_, rfl⟩
  rw [hout] at ho ⊢
  unfold outcome at hout
  unfold relocate
  cases hsym : L.obj.symbolByIndex e.rel.sym with
  | none => rw [hsym] at hout; exact absurd hout.symm ho
  | some sym =>
    rw [hsym] at hout
    dsimp only at hout ⊢
    rw [if_neg hsz] at hout ⊢
    rw [hpatch, hread]
    cases hres : resolve tab L sym with
    | error err => rw [hres] at hout; exact absurd hout.symm ho
    | ok q =>
      rw [hres] at hout
      cases q with
      | fail => exact absurd hout.symm ho
      | skip =>
        dsimp only at hout
        subst hout
        exact ⟨m, rfl, rfl, .refl _, h⟩
      | value S =>
        dsimp only at hout
        have haddr : entryAddr tab L e = some S := by
          unfold entryAddr
          rw [hsym]
          dsimp only
          rw [hres]
        by_cases h32 : e.rel.type = r386_32
        · obtain ⟨vmm, hw, hsame, hshow⟩ := h.patch hinv hlive haddr
            (w := Word32.add S (wordAt μ (e.addr L)))
            (by unfold relocatedWord; rw [if_pos h32]) (by omega) (by omega) ha
          refine ⟨withVmm m vmm, ?_, rfl, hsame, ?_⟩
          · simp only [Traced.result_bind, Traced.result_lift]
            refine ⟨_, rfl, _, rfl, ?_⟩
            dsimp only
            rw [if_pos h32]
            simp only [Traced.result_bind, Traced.result_lift, Traced.result_emit]
            exact ⟨(), trivial, vmm, hw, rfl⟩
          · rw [if_pos (Or.inl h32)] at hout
            subst hout
            exact hshow
        · have hpc : e.rel.type = r386_PC32 := by
            by_contra hpc
            rw [if_neg (not_or.2 ⟨h32, hpc⟩)] at hout
            exact ho hout.symm
          obtain ⟨vmm, hw, hsame, hshow⟩ := h.patch hinv hlive haddr
            (w := Word32.sub (Word32.add S (wordAt μ (e.addr L))) (e.addr L))
            (by unfold relocatedWord; rw [if_neg h32]) (by omega) (by omega) ha
          refine ⟨withVmm m vmm, ?_, rfl, hsame, ?_⟩
          · simp only [Traced.result_bind, Traced.result_lift]
            refine ⟨_, rfl, _, rfl, ?_⟩
            dsimp only
            rw [if_neg h32, if_pos hpc]
            simp only [Traced.result_bind, Traced.result_lift, Traced.result_emit]
            exact ⟨(), trivial, vmm, hw, rfl⟩
          · rw [if_pos (Or.inr hpc)] at hout
            subst hout
            exact hshow

end

/-! ## All entries -/

section

variable {res ext own live : ℕ → Prop} {rs : List PageRun} {tab : List KexpEntry} {L : Layout}
  {m m' : ModuleSpace} {μ : ℕ → UInt8}

/-- The fixups of a list of entries. -/
def fixups (tab : List KexpEntry) (L : Layout) (es : List Patch) : List Fixup :=
  (es.filter fun e => outcome tab L e.sec e.rel = .patch).map (fixup tab L)

/-- An entry that `stage2` can go through: its word is in its section, on pages `live`, and its
symbol can be resolved. -/
structure Usable (tab : List KexpEntry) (L : Layout) (live : ℕ → Prop) (e : Patch) : Prop where
  fits : Fits L e.which e.sec
  offset : e.rel.offset + 4 ≤ e.sec.size
  live : ∀ k < 4, live ((e.addr L + k) / 4096)
  outcome : Linker.outcome tab L e.sec e.rel ≠ .fail

/-- **All entries.** -/
theorem relocateEntries_shows : ∀ {es : List Patch} {m : ModuleSpace} {μ : ℕ → UInt8},
    Shows m live μ → m.Inv res ext own rs → LivePages m own rs live →
    (∀ e ∈ es, Usable tab L live e) →
    ∃ m', (relocateEntries tab L es m).result = .ok (m', true) ∧ m'.lmm = m.lmm ∧
      Mm.SameTables m.mm m'.mm ∧ Shows m' live (Fixup.applyAll (fixups tab L es) μ) := by
  intro es
  induction es with
  | nil => intro m μ h _ _ _; exact ⟨m, rfl, rfl, .refl _, h⟩
  | cons e es ih =>
    intro m μ h hinv hlive hes
    obtain ⟨he, hes⟩ := List.forall_mem_cons.1 hes
    obtain ⟨m₁, h₁, hlmm₁, hsame₁, hshow₁⟩ :=
      relocate_shows h hinv hlive he.fits he.offset he.live he.outcome
    have hinv₁ := hinv.of_same hsame₁
    rw [← hlmm₁] at hinv₁
    obtain ⟨m', hr, hlmm, hsame, hshow⟩ := ih hshow₁ hinv₁ (hlive.of_same hinv hsame₁) hes
    refine ⟨m', ?_, hlmm.trans hlmm₁, hsame₁.trans hsame, ?_⟩
    · rw [relocateEntries, Traced.result_bind]
      exact ⟨(m₁, true), h₁, hr⟩
    · have heffect : Fixup.applyAll (fixups tab L (e :: es)) μ =
          Fixup.applyAll (fixups tab L es) (entryEffect tab L e μ) := by
        unfold fixups entryEffect
        cases ho : outcome tab L e.sec e.rel with
        | fail => exact absurd ho he.outcome
        | skip => rw [List.filter_cons_of_neg (by rw [ho]; decide)]
        | patch =>
          rw [List.filter_cons_of_pos (by rw [ho]; decide)]
          rfl
      rw [heffect]
      exact hshow

theorem fixups_perm {es es' : List Patch} (h : es.Perm es') :
    (fixups tab L es).Perm (fixups tab L es') := (h.filter _).map _

theorem mem_fixups {p : Fixup} {es : List Patch} :
    p ∈ fixups tab L es ↔
      ∃ e ∈ es, outcome tab L e.sec e.rel = .patch ∧ p = fixup tab L e := by
  unfold fixups
  rw [List.mem_map]
  simp only [List.mem_filter, decide_eq_true_eq]
  constructor
  · rintro ⟨e, ⟨he, ho⟩, rfl⟩
    exact ⟨e, he, ho, rfl⟩
  · rintro ⟨e, he, ho, rfl⟩
    exact ⟨e, ⟨he, ho⟩, rfl⟩

/-- The words of the fixups have no byte in common. -/
theorem fixups_apart {es : List Patch}
    (hpatch : ∀ e ∈ es, outcome tab L e.sec e.rel = .patch →
      ∃ S, Patches (Found tab L.obj.image) L e S)
    (h : es.Pairwise fun e e' => (∃ S, Patches (Found tab L.obj.image) L e S) →
      (∃ S, Patches (Found tab L.obj.image) L e' S) →
        e.addr L + 4 ≤ e'.addr L ∨ e'.addr L + 4 ≤ e.addr L) :
    (fixups tab L es).Pairwise Fixup.Apart := by
  unfold fixups
  rw [List.pairwise_map, List.pairwise_filter]
  refine h.imp_of_mem fun {e e'} he he' hee' ho ho' => ?_
  exact hee' (hpatch e he (of_decide_eq_true ho)) (hpatch e' he' (of_decide_eq_true ho'))

end

/-! ## The result -/

section

variable {res ext own : ℕ → Prop} {tab : List KexpEntry} {s : Linker} {o : Object} {L : Layout}
  {m m' m'' : ModuleSpace} {μ : ℕ → UInt8}

theorem mem_entries {hs : List SectionHeader} {e : Patch} :
    e ∈ entries L hs ↔
      ∃ h ∈ hs, relTarget L h = .apply e.which e.sec ∧ e.rel ∈ L.obj.rels h := by
  unfold entries
  rw [List.mem_flatMap]
  refine exists_congr fun h => and_congr_right fun _ => ?_
  cases relTarget L h with
  | fail => exact iff_of_false List.not_mem_nil fun h => by cases h.1
  | skip => exact iff_of_false List.not_mem_nil fun h => by cases h.1
  | apply wh sec =>
    dsimp only
    rw [List.mem_map]
    constructor
    · rintro ⟨r, hr, rfl⟩
      exact ⟨rfl, hr⟩
    · rintro ⟨h1, h2⟩
      cases h1
      exact ⟨e.rel, h2, rfl⟩

/-- The pages of the layouts, those that are mapped. -/
def livePages (s : Linker) (m : ModuleSpace) (L : Layout) (v : ℕ) : Prop :=
  In (L.runs ++ runs s.layouts) v ∧ ∃ f, m.mm.mapped v = some f

/-- The bytes of memory; a page that is not mapped has none. -/
def bytesOf (m : ModuleSpace) (x : ℕ) : UInt8 :=
  match m.mm.vmm.readByte x with
  | .ok b => b
  | .error _ => 0

/-- What the relocations find: the pages of the layout are mapped, and the sections of its map lie on
them. -/
structure Prepared (res ext own : ℕ → Prop) (s : Linker) (m : ModuleSpace) (L : Layout) : Prop where
  loading : Loading res ext own s m L
  backed : Backed m L
  fits : MapFits L

theorem Prepared.shows (h : Prepared res ext own s m L) :
    Shows m (livePages s m L) (bytesOf m) := by
  rintro x ⟨hin, f, hf⟩
  have hlow := (h.loading.space.owned.own_high _ (Or.inr hin)).2
  unfold bytesOf
  rw [Mm.readByte_eq (by omega), hf]

theorem livePages_live : LivePages m own (L.runs ++ runs s.layouts) (livePages s m L) :=
  fun _ hv => ⟨Or.inr hv.1, hv.2⟩

/-- The word of an entry, on pages of the layout. -/
theorem Prepared.word (h : Prepared res ext own s m L) {e : Patch}
    (he : e ∈ entries L L.obj.secHdrs) (hoff : e.rel.offset + 4 ≤ e.sec.size) :
    Fits L e.which e.sec ∧ ∀ k < 4, livePages s m L ((e.addr L + k) / 4096) := by
  obtain ⟨hd, _, ht, _⟩ := mem_entries.1 he
  obtain ⟨hmap, hb⟩ := relTarget_apply ht
  have hfit := h.fits _ _ _ hmap hb
  refine ⟨hfit, fun k hk => ?_⟩
  obtain ⟨hlo, hhi, hsec⟩ := hfit
  have haddr : e.addr L = (L.region e.which).base + e.sec.regOff + e.rel.offset := by
    have hbase : Word32.add (L.region e.which).base e.sec.regOff =
        (L.region e.which).base + e.sec.regOff := Word32.add_eq (by omega)
    unfold Patch.addr patchAddr
    rw [hbase, Word32.add_eq (by omega)]
  obtain ⟨r, hr, hin⟩ := in_region (h.loading.ok.region e.which) (x := e.addr L + k) hb (by omega)
    (by omega)
  have hmem : r ∈ L.runs :=
    (L.runs_perm_region e.which.other_ne).symm.subset (List.mem_append_left _ hr)
  exact ⟨⟨r, List.mem_append_left _ hmem, hin⟩, h.backed _ ⟨r, hmem, hin⟩⟩

/-- The entries that are gone through to the end. -/
theorem Prepared.usable (h : Prepared res ext own s m L)
    (hr : (relocateEntries tab L (entries L L.obj.secHdrs) m).result = .ok (m', true))
    (hoff : ∀ e ∈ entries L L.obj.secHdrs, e.rel.offset + 4 ≤ e.sec.size) :
    ∀ e ∈ entries L L.obj.secHdrs, Usable tab L (livePages s m L) e := by
  intro e he
  obtain ⟨hfit, hlive⟩ := h.word he (hoff e he)
  exact ⟨hfit, hoff e he, hlive, outcome_of_relocateEntries hr e he⟩

/-- States with the same tables that show the same bytes. -/
theorem Prepared.readByte_eq (h : Prepared res ext own s m L) (hs : Mm.SameTables m.mm m'.mm)
    (hs' : Mm.SameTables m.mm m''.mm) {ν : ℕ → UInt8} (hm : Shows m' (livePages s m L) μ)
    (hm' : Shows m'' (livePages s m L) ν) {x : ℕ}
    (hx : In (L.runs ++ runs s.layouts) (x / 4096)) (he : ν x = μ x) :
    m''.mm.vmm.readByte x = m'.mm.vmm.readByte x := by
  have hlow := (h.loading.space.owned.own_high _ (Or.inr hx)).2
  cases hf : m.mm.mapped (x / 4096) with
  | some f => rw [hm x ⟨hx, f, hf⟩, hm' x ⟨hx, f, hf⟩, he]
  | none =>
    rw [Mm.readByte_eq (by omega), Mm.readByte_eq (by omega), hs.mapped _ hlow,
      hs'.mapped _ hlow, hf]

/-- **Relocations.** When the entries are gone through to the end, with offsets in the sections and
patched words apart, every patched word is `S + A` or `S + A - P` and nothing else changes; and the
entries give the same memory in any order. An undefined symbol has the address that `kexp::lookup`
finds for its name. -/
theorem Prepared.relocated (hready : Prepared res ext own s m L)
    (hr : (relocateEntries tab L (entries L L.obj.secHdrs) m).result = .ok (m', true))
    (hoff : ∀ e ∈ entries L L.obj.secHdrs, e.rel.offset + 4 ≤ e.sec.size)
    (hapart : WordsApart (Found tab L.obj.image) L) :
    Relocated (Found tab L.obj.image) s L m m' ∧
      ∀ es, es.Perm (entries L L.obj.secHdrs) → ∃ m'',
        (relocateEntries tab L es m).result = .ok (m'', true) ∧ SameMemory s L m' m'' := by
  have husable := hready.usable hr hoff
  have hsmall : ∀ e ∈ entries L L.obj.secHdrs, e.rel.offset + 4 < 4294967296 := by
    intro e he
    obtain ⟨hlo, hhi, hsec⟩ := (husable e he).fits
    have := hoff e he
    omega
  have hiff : ∀ e ∈ entries L L.obj.secHdrs, outcome tab L e.sec e.rel = .patch ↔
      ∃ S, Patches (Found tab L.obj.image) L e S :=
    fun e he => outcome_eq_patch_iff (hoff e he) (hsmall e he)
  have hfix := fixups_apart (fun e he ho => (hiff e he).1 ho) hapart
  obtain ⟨m₁, h₁, hlmm, hsame, hshow⟩ :=
    relocateEntries_shows hready.shows hready.loading.space livePages_live husable
  rw [hr] at h₁
  cases h₁
  refine ⟨⟨fun e he S hS => ?_, fun x hx hout => ?_⟩, fun es hperm => ?_⟩
  · have ho := (hiff e he).2 ⟨S, hS⟩
    have hword := Fixup.wordAt_applyAll (μ := bytesOf m) hfix _ (mem_fixups.2 ⟨e, he, ho, rfl⟩)
    have haddr : entryAddr tab L e = some S := entryAddr_eq_some.2 hS.1
    have hval : (fixup tab L e).value = relocatedWord L e S := by
      unfold fixup
      rw [haddr]
      rfl
    have hfixaddr : (fixup tab L e).addr = e.addr L := rfl
    rw [hval, hfixaddr] at hword
    have hlt : e.addr L + 4 < 4294967296 := by
      have hl := (husable e he).live 3 (by norm_num)
      have := (hready.loading.space.owned.own_high _ (Or.inr hl.1)).2
      omega
    refine ⟨_, _, hready.shows.read32 hlt (husable e he).live,
      hshow.read32 hlt (husable e he).live, fun h32 => ?_, fun hpc => ?_⟩
    · rw [hword]
      unfold relocatedWord Word32.add
      rw [if_pos h32]
      push_cast
      omega
    · have hne : e.rel.type ≠ r386_32 := by rw [hpc]; decide
      rw [hword]
      unfold relocatedWord Word32.sub Word32.add
      rw [if_neg hne]
      push_cast
      omega
  · refine hready.readByte_eq (.refl _) hsame hready.shows hshow hx ?_
    refine Fixup.applyAll_of_outside fun p hp => ?_
    obtain ⟨e, he, ho, rfl⟩ := mem_fixups.1 hp
    obtain ⟨S, hS⟩ := (hiff e he).1 ho
    exact hout e he S hS
  · obtain ⟨m₂, h₂', hlmm', hsame', hshow'⟩ := relocateEntries_shows hready.shows
      hready.loading.space livePages_live fun e he => husable e (hperm.subset he)
    rw [← Fixup.applyAll_perm hfix (fixups_perm hperm.symm)] at hshow'
    exact ⟨m₂, h₂', hlmm'.trans hlmm.symm, hsame.symm.trans hsame',
      fun x hx => hready.readByte_eq hsame hsame' hshow hshow' hx rfl⟩

end

end Linker

end Ospp
