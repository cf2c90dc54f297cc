import Mathlib.Tactic

/-!
# The text console

`EarlyDisplay` from `driver/early_display.cpp`, over the bytes of the framebuffer, against a
terminal of 80 columns and 25 rows (`Terminal`).

As long as no line feed leaves row 24 the two agree (`Shows.step`). `scroll` copies the wrong way
and takes cells for bytes, so from the first scroll on they differ (`Broken.step`): the symbols of
row 12 are zero, and the last cell of row 24 is never cleared.
-/

namespace Ospp.EarlyDisplay

abbrev width : ℕ := 80

abbrev height : ℕ := 25

structure Cursor where
  x : UInt8
  y : UInt8
  deriving DecidableEq, Repr

/-- The static data, the bytes from the framebuffer on, and what has been done: the bytes written,
by their distance from the framebuffer, and the writes to ports. -/
structure Display where
  mem : ℕ → UInt8
  written : List ℕ
  ports : List (UInt16 × UInt8)
  cursor : Cursor
  attr : UInt8

namespace Display

def store (d : Display) (a : ℕ) (v : UInt8) : Display :=
  { d with mem := Function.update d.mem a v, written := d.written ++ [a] }

/-- The first `n` bytes of `memcpy`. -/
def memcpy (d : Display) (dst src : ℕ) : ℕ → Display
  | 0 => d
  | n + 1 =>
    let d := memcpy d dst src n
    d.store (dst + n) (d.mem (src + n))

/-- The first `n` bytes of `memset`. -/
def memset (d : Display) (dst : ℕ) (data : UInt8) : ℕ → Display
  | 0 => d
  | n + 1 => (memset d dst data n).store (dst + n) data

def setFg (d : Display) (color : UInt8) : Display :=
  { d with attr := (d.attr &&& (0xF0 : UInt8)) ||| color }

def setBg (d : Display) (color : UInt8) : Display :=
  { d with attr := (d.attr &&& (0x0F : UInt8)) ||| (color <<< (4 : UInt8)) }

/-- The cell at column `x` and row `y`. -/
def index (x y : UInt8) : UInt16 := y.toUInt16 * 80 + x.toUInt16

/-- `fb_put`; a cell is its symbol and its attribute. -/
def fbPut (d : Display) (x y : UInt8) (c : Int8) : Display :=
  (d.store (2 * (index x y).toNat) c.toUInt8).store (2 * (index x y).toNat + 1) d.attr

def clear (d : Display) : Display :=
  ((List.range height).product (List.range width)).foldl
    (fun d i => d.fbPut (UInt8.ofNat i.2) (UInt8.ofNat i.1) 32) d

/-- The `switch` of `putc`. Characters are signed, and those below the blank are dropped. -/
def place (d : Display) (c : Int8) : Display :=
  if c = 10 then { d with cursor := ⟨0, d.cursor.y + 1⟩ }
  else if c = 9 then { d with cursor := ⟨d.cursor.x + 4, d.cursor.y⟩ }
  else if c = 13 then { d with cursor := ⟨0, d.cursor.y⟩ }
  else if c = 8 then
    if d.cursor.x > 0 then
      let d := { d with cursor := ⟨d.cursor.x - 1, d.cursor.y⟩ }
      d.fbPut d.cursor.x d.cursor.y 32
    else d
  else if c ≥ 32 then
    let d := d.fbPut d.cursor.x d.cursor.y c
    { d with cursor := ⟨d.cursor.x + 1, d.cursor.y⟩ }
  else d

def wrap (d : Display) : Display :=
  if d.cursor.x ≥ 80 then { d with cursor := ⟨0, d.cursor.y + 1⟩ } else d

/-- What `move_cursor` writes to the ports. -/
def cursorWrites (pos : UInt16) : List (UInt16 × UInt8) :=
  [(0x3D4, 0x0F), (0x3D5, (pos &&& 0xFF).toUInt8), (0x3D4, 0x0E),
    (0x3D5, ((pos >>> 8) &&& 0xFF).toUInt8)]

def moveCursor (d : Display) : Display :=
  { d with ports := d.ports ++ cursorWrites (index d.cursor.x d.cursor.y) }

def scroll (d : Display) : Display :=
  if d.cursor.y ≥ 25 then
    let d := d.memcpy width 0 ((height - 1) * width * 2)
    let d := d.memset ((height - 1) * width) 0 (width * 2)
    { d with cursor := ⟨d.cursor.x, 24⟩ }
  else d

def putc (d : Display) (c : Int8) : Display := (d.place c).wrap.moveCursor.scroll

end Display

inductive Op where
  | putc (c : Int8)
  | setFg (color : UInt8)
  | setBg (color : UInt8)
  deriving DecidableEq, Repr

def Display.step (d : Display) : Op → Display
  | .putc c => d.putc c
  | .setFg color => d.setFg color
  | .setBg color => d.setBg color

def Display.run (d : Display) (ops : List Op) : Display := ops.foldl Display.step d

/-! ## The terminal -/

structure Cell where
  symbol : UInt8
  attr : UInt8
  deriving DecidableEq, Repr

/-- A screen of rows and columns, with a cursor. -/
structure Terminal where
  cell : ℕ → ℕ → Cell
  col : ℕ
  row : ℕ
  attr : UInt8

namespace Terminal

def put (t : Terminal) (r c : ℕ) (x : Cell) : Terminal :=
  { t with cell := fun r' c' => if r' = r ∧ c' = c then x else t.cell r' c' }

/-- A character at the cursor. A tab is four columns wide, a backspace blanks the cell to the left,
if there is one. -/
def place (t : Terminal) (c : Int8) : Terminal :=
  if c = 10 then { t with col := 0, row := t.row + 1 }
  else if c = 9 then { t with col := t.col + 4 }
  else if c = 13 then { t with col := 0 }
  else if c = 8 then
    if t.col > 0 then { t.put t.row (t.col - 1) ⟨32, t.attr⟩ with col := t.col - 1 } else t
  else if c ≥ 32 then { t.put t.row t.col ⟨c.toUInt8, t.attr⟩ with col := t.col + 1 }
  else t

def wrap (t : Terminal) : Terminal :=
  if t.col ≥ width then { t with col := 0, row := t.row + 1 } else t

/-- A cursor past the last row moves the rows up by one. -/
def scroll (blank : Cell) (t : Terminal) : Terminal :=
  if t.row ≥ height then
    { t with cell := fun r c => if r < height - 1 then t.cell (r + 1) c else blank
             row := height - 1 }
  else t

def putc (blank : Cell) (t : Terminal) (c : Int8) : Terminal := (t.place c).wrap.scroll blank

def step (blank : Cell) (t : Terminal) : Op → Terminal
  | .putc c => t.putc blank c
  | .setFg color => { t with attr := (t.attr &&& (0xF0 : UInt8)) ||| color }
  | .setBg color => { t with attr := (t.attr &&& (0x0F : UInt8)) ||| (color <<< (4 : UInt8)) }

def run (blank : Cell) (t : Terminal) (ops : List Op) : Terminal := ops.foldl (step blank) t

/-- A blank screen, with a cursor anywhere on it. -/
def blankScreen (col row : ℕ) (attr : UInt8) : Terminal := ⟨fun _ _ => ⟨32, attr⟩, col, row, attr⟩

/-- The character moves the cursor past the last row. -/
def Overflows (t : Terminal) (c : Int8) : Prop := height ≤ (t.place c).wrap.row

instance (t : Terminal) (c : Int8) : Decidable (t.Overflows c) :=
  inferInstanceAs (Decidable (_ ≤ _))

/-- The cursor never moves past the last row. -/
def ScrollFree (blank : Cell) : Terminal → List Op → Prop
  | _, [] => True
  | t, .putc c :: ops => ¬ t.Overflows c ∧ ScrollFree blank (t.putc blank c) ops
  | t, op :: ops => ScrollFree blank (t.step blank op) ops

end Terminal

/-- The framebuffer holds what the terminal shows. -/
def Matches (d : Display) (t : Terminal) : Prop :=
  ∀ r < height, ∀ c < width,
    d.mem (2 * (80 * r + c)) = (t.cell r c).symbol ∧
      d.mem (2 * (80 * r + c) + 1) = (t.cell r c).attr

/-- All writes so far were to the cells of the screen. -/
def Inside (d : Display) : Prop := ∀ a ∈ d.written, a < 2 * (height * width)

def Cursor.InBounds (c : Cursor) : Prop := c.x.toNat < width ∧ c.y.toNat < height

/-! ## Stores -/

@[simp] theorem mem_store (d : Display) (a : ℕ) (v : UInt8) :
    (d.store a v).mem = Function.update d.mem a v := rfl

@[simp] theorem cursor_store (d : Display) (a : ℕ) (v : UInt8) :
    (d.store a v).cursor = d.cursor := rfl

@[simp] theorem attr_store (d : Display) (a : ℕ) (v : UInt8) : (d.store a v).attr = d.attr := rfl

theorem Inside.store {d : Display} (h : Inside d) {a : ℕ} (ha : a < 4000) (v : UInt8) :
    Inside (d.store a v) := by
  intro b hb
  rcases List.mem_append.1 hb with hold | hnew
  · exact h b hold
  · rw [List.mem_singleton.1 hnew]
    exact ha

theorem memcpy_frame (d : Display) (dst src n : ℕ) :
    (d.memcpy dst src n).cursor = d.cursor ∧ (d.memcpy dst src n).attr = d.attr ∧
      (∀ a, a < dst ∨ dst + n ≤ a → (d.memcpy dst src n).mem a = d.mem a) ∧
      (dst + n ≤ 4000 → Inside d → Inside (d.memcpy dst src n)) := by
  induction n with
  | zero => exact ⟨rfl, rfl, fun _ _ => rfl, fun _ h => h⟩
  | succ n ih =>
    obtain ⟨hcursor, hattr, hmem, hin⟩ := ih
    refine ⟨hcursor, hattr, fun a ha => ?_, fun hn h => ?_⟩
    · rw [Display.memcpy, mem_store, Function.update_of_ne (by omega)]
      exact hmem a (by omega)
    · exact (hin (by omega) h).store (by omega) _

theorem memset_spec (d : Display) (dst : ℕ) (data : UInt8) (n : ℕ) :
    (d.memset dst data n).cursor = d.cursor ∧ (d.memset dst data n).attr = d.attr ∧
      (∀ a, (d.memset dst data n).mem a = if dst ≤ a ∧ a < dst + n then data else d.mem a) ∧
      (dst + n ≤ 4000 → Inside d → Inside (d.memset dst data n)) := by
  induction n with
  | zero => exact ⟨rfl, rfl, fun a => by rw [if_neg (by omega)]; rfl, fun _ h => h⟩
  | succ n ih =>
    obtain ⟨hcursor, hattr, hmem, hin⟩ := ih
    refine ⟨hcursor, hattr, fun a => ?_, fun hn h => ?_⟩
    · rw [Display.memset, mem_store]
      by_cases ha : a = dst + n
      · subst ha
        rw [Function.update_self, if_pos (by omega)]
      · rw [Function.update_of_ne ha, hmem a]
        by_cases hlt : dst ≤ a ∧ a < dst + n
        · rw [if_pos hlt, if_pos (by omega)]
        · rw [if_neg hlt, if_neg (by omega)]
    · exact (hin (by omega) h).store (by omega) _

theorem toNat_index {x y : UInt8} (hx : x.toNat < 80) (hy : y.toNat < 25) :
    (Display.index x y).toNat = 80 * y.toNat + x.toNat := by
  unfold Display.index
  rw [UInt16.toNat_add, UInt16.toNat_mul, UInt8.toNat_toUInt16, UInt8.toNat_toUInt16,
    show (80 : UInt16).toNat = 80 from rfl]
  omega

/-- `fb_put` writes the cell at its row and column. -/
theorem mem_fbPut (d : Display) {x y : UInt8} (hx : x.toNat < 80) (hy : y.toNat < 25) (c : Int8)
    (a : ℕ) :
    (d.fbPut x y c).mem a =
      if a = 2 * (80 * y.toNat + x.toNat) then c.toUInt8
      else if a = 2 * (80 * y.toNat + x.toNat) + 1 then d.attr else d.mem a := by
  unfold Display.fbPut
  rw [toNat_index hx hy, mem_store, mem_store, Function.update_apply, Function.update_apply]
  by_cases hodd : a = 2 * (80 * y.toNat + x.toNat) + 1
  · rw [if_pos hodd, if_neg (by omega), if_pos hodd]
  · rw [if_neg hodd, if_neg hodd]

theorem Inside.fbPut {d : Display} (h : Inside d) {x y : UInt8} (hx : x.toNat < 80)
    (hy : y.toNat < 25) (c : Int8) : Inside (d.fbPut x y c) := by
  have hindex := toNat_index hx hy
  exact (h.store (by omega) _).store (by omega) _

/-! ## One character -/

/-- The terminal's cursor is on the screen, and the display has the same cursor and attribute. -/
structure Agree (d : Display) (t : Terminal) : Prop where
  x : d.cursor.x.toNat = t.col
  y : d.cursor.y.toNat = t.row
  attr : d.attr = t.attr
  col : t.col < 80
  row : t.row < 25

/-- A character is put nowhere, or into a cell of the cursor's row. Behind the last cell the cursor
goes on to the next row. -/
structure Placed (d : Display) (t : Terminal) (d' : Display) (t' : Terminal) : Prop where
  x : d'.cursor.x.toNat = t'.col
  y : d'.cursor.y.toNat = t'.row
  attr : d'.attr = t'.attr
  col : t'.col < 80
  row : t.row ≤ t'.row ∧ t'.row ≤ t.row + 1
  cells : (d'.mem = d.mem ∧ d'.written = d.written ∧ t'.cell = t.cell) ∨
    ∃ (x : UInt8) (s : Int8), x.toNat < 80 ∧ s.toUInt8 ≠ 0 ∧
      d'.mem = (d.fbPut x d.cursor.y s).mem ∧ d'.written = (d.fbPut x d.cursor.y s).written ∧
      t'.cell = (t.put t.row x.toNat ⟨s.toUInt8, t.attr⟩).cell ∧
      (x.toNat = 79 → t'.row = t.row + 1)

theorem symbol_ne_zero {c : Int8} (h : c ≥ 32) : c.toUInt8 ≠ 0 := by
  obtain ⟨u⟩ := c
  intro hzero
  change u = 0 at hzero
  subst hzero
  exact absurd h (by decide)

@[simp] theorem mem_wrap (d : Display) : d.wrap.mem = d.mem := by
  unfold Display.wrap
  split <;> rfl

@[simp] theorem written_wrap (d : Display) : d.wrap.written = d.written := by
  unfold Display.wrap
  split <;> rfl

@[simp] theorem attr_wrap (d : Display) : d.wrap.attr = d.attr := by
  unfold Display.wrap
  split <;> rfl

@[simp] theorem cell_wrap (t : Terminal) : t.wrap.cell = t.cell := by
  unfold Terminal.wrap
  split <;> rfl

@[simp] theorem attr_terminal_wrap (t : Terminal) : t.wrap.attr = t.attr := by
  unfold Terminal.wrap
  split <;> rfl

/-- A character that leaves the cursor in its row, or behind the end of it. -/
theorem Placed.of_wrap {d d' : Display} {t t' : Terminal} (h : Agree d t)
    (hx : d'.cursor.x.toNat = t'.col) (hy : d'.cursor.y = d.cursor.y) (hrow : t'.row = t.row)
    (hattr : d'.attr = t'.attr)
    (hcells : (d'.mem = d.mem ∧ d'.written = d.written ∧ t'.cell = t.cell) ∨
      ∃ (x : UInt8) (s : Int8), x.toNat < 80 ∧ s.toUInt8 ≠ 0 ∧
        d'.mem = (d.fbPut x d.cursor.y s).mem ∧ d'.written = (d.fbPut x d.cursor.y s).written ∧
        t'.cell = (t.put t.row x.toNat ⟨s.toUInt8, t.attr⟩).cell ∧
        (x.toNat = 79 → 80 ≤ t'.col)) :
    Placed d t d'.wrap t'.wrap := by
  have hge : d'.cursor.x ≥ 80 ↔ t'.col ≥ 80 := by
    rw [ge_iff_le, UInt8.le_iff_toNat_le, hx]
    rfl
  have hlast : 80 ≤ t'.col → t'.wrap.row = t.row + 1 := fun hfull => by
    unfold Terminal.wrap
    rw [if_pos hfull, hrow]
  refine ⟨?_, ?_, by simpa using hattr, ?_, ?_, ?_⟩
  · unfold Display.wrap Terminal.wrap
    by_cases hfull : t'.col ≥ 80
    · rw [if_pos (hge.2 hfull), if_pos hfull]
      rfl
    · rw [if_neg (mt hge.1 hfull), if_neg hfull]
      exact hx
  · unfold Display.wrap Terminal.wrap
    by_cases hfull : t'.col ≥ 80
    · rw [if_pos (hge.2 hfull), if_pos hfull]
      change (d'.cursor.y + 1).toNat = t'.row + 1
      have hlt := h.row
      rw [hy, hrow, UInt8.toNat_add, h.y, show (1 : UInt8).toNat = 1 from rfl]
      omega
    · rw [if_neg (mt hge.1 hfull), if_neg hfull, hy, hrow]
      exact h.y
  · unfold Terminal.wrap
    by_cases hfull : t'.col ≥ 80
    · rw [if_pos hfull]
      exact Nat.zero_lt_succ 79
    · rw [if_neg hfull]
      exact Nat.not_le.1 hfull
  · unfold Terminal.wrap
    by_cases hfull : t'.col ≥ 80
    · rw [if_pos hfull, hrow]
      exact ⟨Nat.le_succ _, Nat.le_refl _⟩
    · rw [if_neg hfull, hrow]
      exact ⟨Nat.le_refl _, Nat.le_succ _⟩
  · rw [mem_wrap, written_wrap, cell_wrap]
    exact hcells.imp_right fun ⟨x, s, hx, hs, hmem, hwritten, hcell, h79⟩ =>
      ⟨x, s, hx, hs, hmem, hwritten, hcell, hlast ∘ h79⟩

theorem placed {d : Display} {t : Terminal} (h : Agree d t) (c : Int8) :
    Placed d t (d.place c).wrap (t.place c).wrap := by
  have hx := h.x
  have hcol := h.col
  have hrow := h.row
  unfold Display.place Terminal.place
  by_cases hnl : c = 10
  · rw [if_pos hnl, if_pos hnl]
    have hwrap : ({ d with cursor := ⟨0, d.cursor.y + 1⟩ } : Display).wrap =
        { d with cursor := ⟨0, d.cursor.y + 1⟩ } := if_neg (show ¬ (0 : UInt8) ≥ 80 by decide)
    have hwrap' : ({ t with col := 0, row := t.row + 1 } : Terminal).wrap =
        { t with col := 0, row := t.row + 1 } := if_neg (show ¬ 0 ≥ 80 by decide)
    rw [hwrap, hwrap']
    refine ⟨rfl, ?_, h.attr, Nat.zero_lt_succ 79, ⟨Nat.le_succ _, Nat.le_refl _⟩,
      .inl ⟨rfl, rfl, rfl⟩⟩
    change (d.cursor.y + 1).toNat = t.row + 1
    rw [UInt8.toNat_add, h.y, show (1 : UInt8).toNat = 1 from rfl]
    omega
  rw [if_neg hnl, if_neg hnl]
  by_cases htab : c = 9
  · rw [if_pos htab, if_pos htab]
    refine .of_wrap h ?_ rfl rfl h.attr (.inl ⟨rfl, rfl, rfl⟩)
    change (d.cursor.x + 4).toNat = t.col + 4
    rw [UInt8.toNat_add, hx, show (4 : UInt8).toNat = 4 from rfl]
    omega
  rw [if_neg htab, if_neg htab]
  by_cases hcr : c = 13
  · rw [if_pos hcr, if_pos hcr]
    exact .of_wrap h rfl rfl rfl h.attr (.inl ⟨rfl, rfl, rfl⟩)
  rw [if_neg hcr, if_neg hcr]
  by_cases hbs : c = 8
  · rw [if_pos hbs, if_pos hbs]
    have hpos : d.cursor.x > 0 ↔ t.col > 0 := by
      rw [gt_iff_lt, UInt8.lt_iff_toNat_lt, hx]
      rfl
    by_cases hleft : t.col > 0
    · rw [if_pos (hpos.2 hleft), if_pos hleft]
      have hsub : (d.cursor.x - 1).toNat = t.col - 1 := by
        rw [UInt8.toNat_sub_of_le _ _ (UInt8.le_iff_toNat_le.2 (by rw [hx]; exact hleft)), hx]
        rfl
      refine .of_wrap h hsub rfl rfl h.attr
        (.inr ⟨d.cursor.x - 1, 32, ?_, by decide, rfl, rfl, ?_, ?_⟩)
      · omega
      · rw [hsub]
        rfl
      · intro h79
        omega
    · rw [if_neg (mt hpos.1 hleft), if_neg hleft]
      exact .of_wrap h hx rfl rfl h.attr (.inl ⟨rfl, rfl, rfl⟩)
  rw [if_neg hbs, if_neg hbs]
  by_cases hprint : c ≥ 32
  · rw [if_pos hprint, if_pos hprint]
    refine .of_wrap h ?_ rfl rfl h.attr
      (.inr ⟨d.cursor.x, c, by omega, symbol_ne_zero hprint, rfl, rfl, ?_, ?_⟩)
    · change (d.cursor.x + 1).toNat = t.col + 1
      rw [UInt8.toNat_add, hx, show (1 : UInt8).toNat = 1 from rfl]
      omega
    · rw [hx]
    · intro h79
      change 80 ≤ t.col + 1
      omega
  · rw [if_neg hprint, if_neg hprint]
    exact .of_wrap h hx rfl rfl h.attr (.inl ⟨rfl, rfl, rfl⟩)

/-- The cell a character is put into. -/
theorem Matches.put {d : Display} {t : Terminal} (h : Matches d t) {x y : UInt8}
    (hx : x.toNat < 80) (hy : y.toNat < 25) (s : Int8) :
    ∀ r < 25, ∀ c < 80,
      (d.fbPut x y s).mem (2 * (80 * r + c)) =
          ((t.put y.toNat x.toNat ⟨s.toUInt8, d.attr⟩).cell r c).symbol ∧
        (d.fbPut x y s).mem (2 * (80 * r + c) + 1) =
          ((t.put y.toNat x.toNat ⟨s.toUInt8, d.attr⟩).cell r c).attr := by
  intro r hr c hc
  rw [mem_fbPut d hx hy, mem_fbPut d hx hy]
  unfold Terminal.put
  by_cases hcell : r = y.toNat ∧ c = x.toNat
  · obtain ⟨rfl, rfl⟩ := hcell
    simp
  · have hne : 80 * r + c ≠ 80 * y.toNat + x.toNat := by omega
    obtain ⟨hsym, hattr⟩ := h r hr c hc
    rw [if_neg (by omega), if_neg (by omega), if_neg (by omega), if_neg (by omega)]
    dsimp only
    rw [if_neg hcell]
    exact ⟨hsym, hattr⟩

/-! ## Scrolling -/

/-- What `scroll` does at the end of the screen: the last bytes stay, and row 12 is zero. -/
theorem scroll_spec {d : Display} (hy : d.cursor.y.toNat = 25) :
    d.scroll.cursor = ⟨d.cursor.x, 24⟩ ∧ d.scroll.attr = d.attr ∧ d.scroll.mem 1920 = 0 ∧
      (∀ a, 3920 ≤ a → d.scroll.mem a = d.mem a) ∧ (Inside d → Inside d.scroll) := by
  obtain ⟨hcursor, hattr, hmem, hin⟩ := memcpy_frame d 80 0 3840
  obtain ⟨hcursor', hattr', hmem', hin'⟩ := memset_spec (d.memcpy 80 0 3840) 1920 0 160
  have hrun : d.scroll =
      { (d.memcpy 80 0 3840).memset 1920 0 160 with
        cursor := ⟨((d.memcpy 80 0 3840).memset 1920 0 160).cursor.x, 24⟩ } :=
    if_pos (UInt8.le_iff_toNat_le.2 (by rw [hy]; exact Nat.le_refl 25))
  rw [hrun]
  generalize d.memcpy 80 0 3840 = d₁ at *
  generalize d₁.memset 1920 0 160 = d₂ at *
  refine ⟨?_, hattr'.trans hattr, ?_, fun a ha => ?_, fun h => hin' (by decide) (hin (by decide) h)⟩
  · rw [hcursor', hcursor]
  · exact (hmem' 1920).trans (if_pos (by decide))
  · exact (hmem' a).trans ((if_neg (by omega)).trans (hmem a (by omega)))

theorem scroll_of_lt {d : Display} (hy : d.cursor.y.toNat < 25) : d.scroll = d :=
  if_neg fun h => absurd (UInt8.le_iff_toNat_le.1 h) (Nat.not_le.2 hy)

/-- What holds in every run: the cursors agree, all writes were to the screen, the last cell of the
display has a symbol, and all cells of the terminal have one, if the blank cell does. -/
structure Sane (blank : Cell) (d : Display) (t : Terminal) : Prop where
  agree : Agree d t
  inside : Inside d
  last : d.mem 3998 ≠ 0
  symbols : blank.symbol ≠ 0 → ∀ r c, (t.cell r c).symbol ≠ 0

/-- What holds from the first scroll on: row 12 of the display begins with a zero, and the last cell
of the terminal is blank. -/
structure Scrolled (blank : Cell) (d : Display) (t : Terminal) : Prop where
  row : t.row = 24
  zero : d.mem 1920 = 0
  last : t.cell 24 79 = blank

/-- After a scroll the two differ, whatever a blank cell is. -/
theorem Scrolled.not_matches {blank : Cell} {d : Display} {t : Terminal} (h : Sane blank d t)
    (hs : Scrolled blank d t) : ¬ Matches d t := by
  intro hm
  by_cases hblank : blank.symbol = 0
  · have hlast := (hm 24 (by decide) 79 (by decide)).1
    rw [hs.last, hblank] at hlast
    exact h.last hlast
  · have hrow := (hm 12 (by decide) 0 (by decide)).1
    exact h.symbols hblank 12 0 (hrow.symm.trans hs.zero)

/-- A character before the cursor is moved back. -/
theorem Sane.placed {blank : Cell} {d : Display} {t : Terminal} (h : Sane blank d t) (c : Int8) :
    Inside (d.place c).wrap ∧ (d.place c).wrap.mem 3998 ≠ 0 ∧
      (blank.symbol ≠ 0 → ∀ r k, ((t.place c).wrap.cell r k).symbol ≠ 0) := by
  have hy : d.cursor.y.toNat < 25 := by rw [h.agree.y]; exact h.agree.row
  rcases (EarlyDisplay.placed h.agree c).cells with ⟨hmem, hwritten, hcell⟩ |
    ⟨x, s, hx, hs, hmem, hwritten, hcell, -⟩
  · unfold Inside
    rw [hmem, hwritten, hcell]
    exact ⟨h.inside, h.last, h.symbols⟩
  · unfold Inside
    rw [hmem, hwritten, hcell, mem_fbPut d hx hy]
    refine ⟨h.inside.fbPut hx hy s, ?_, fun hblank r k => ?_⟩
    · by_cases heven : 3998 = 2 * (80 * d.cursor.y.toNat + x.toNat)
      · rw [if_pos heven]
        exact hs
      · rw [if_neg heven, if_neg (by omega)]
        exact h.last
    · unfold Terminal.put
      dsimp only
      split
      · exact hs
      · exact h.symbols hblank r k

theorem Sane.putc {blank : Cell} {d : Display} {t : Terminal} (h : Sane blank d t) (c : Int8) :
    Sane blank (d.putc c) (t.putc blank c) := by
  have hp := EarlyDisplay.placed h.agree c
  obtain ⟨hin, hlast, hsym⟩ := h.placed c
  have hrow := h.agree.row
  unfold Display.putc Terminal.putc
  generalize (d.place c).wrap = d₁ at *
  generalize (t.place c).wrap = t₁ at *
  rcases Nat.lt_or_ge t₁.row 25 with hlt | hge
  · have hscroll : d₁.moveCursor.scroll = d₁.moveCursor :=
      scroll_of_lt (d := d₁.moveCursor) (by rw [← hp.y] at hlt; exact hlt)
    have hscroll' : t₁.scroll blank = t₁ := if_neg (Nat.not_le.2 hlt)
    rw [hscroll, hscroll']
    exact ⟨⟨hp.x, hp.y, hp.attr, hp.col, hlt⟩, hin, hlast, hsym⟩
  · have hfull : t₁.row = 25 := by have := hp.row; omega
    have hscroll' : t₁.scroll blank =
        { t₁ with cell := fun r c => if r < 24 then t₁.cell (r + 1) c else blank, row := 24 } :=
      if_pos hge
    obtain ⟨hcursor, hattr, hzero, hkeep, hinside⟩ :=
      scroll_spec (d := d₁.moveCursor) (hp.y.trans hfull)
    rw [hscroll']
    refine ⟨⟨?_, ?_, hattr.trans hp.attr, hp.col, Nat.lt_succ_self 24⟩, hinside hin, ?_, ?_⟩
    · rw [hcursor]
      exact hp.x
    · rw [hcursor]
      rfl
    · rw [hkeep 3998 (by decide)]
      exact hlast
    · intro hblank r k
      dsimp only
      split
      · exact hsym hblank _ _
      · exact hblank

theorem putc_overflows {blank : Cell} {d : Display} {t : Terminal} (h : Sane blank d t) {c : Int8}
    (hover : t.Overflows c) : Scrolled blank (d.putc c) (t.putc blank c) := by
  have hp := placed h.agree c
  have hrow := h.agree.row
  unfold Terminal.Overflows at hover
  unfold Display.putc Terminal.putc
  generalize (d.place c).wrap = d₁ at *
  generalize (t.place c).wrap = t₁ at *
  have hfull : t₁.row = 25 := by have := hp.row; change 25 ≤ t₁.row at hover; omega
  obtain ⟨-, -, hzero, -, -⟩ := scroll_spec (d := d₁.moveCursor) (hp.y.trans hfull)
  have hscroll' : t₁.scroll blank =
      { t₁ with cell := fun r c => if r < 24 then t₁.cell (r + 1) c else blank, row := 24 } :=
    if_pos hover
  rw [hscroll']
  exact ⟨rfl, hzero, rfl⟩

/-- A character that does not overflow the screen. -/
theorem putc_stays {blank : Cell} {d : Display} {t : Terminal} (h : Sane blank d t) {c : Int8}
    (hover : ¬ t.Overflows c) :
    (Matches d t → Matches (d.putc c) (t.putc blank c)) ∧
      (Scrolled blank d t → Scrolled blank (d.putc c) (t.putc blank c)) := by
  have hp := placed h.agree c
  have hy : d.cursor.y.toNat < 25 := by rw [h.agree.y]; exact h.agree.row
  have hty := h.agree.y
  have hattr := h.agree.attr
  unfold Terminal.Overflows at hover
  unfold Display.putc Terminal.putc
  generalize (d.place c).wrap = d₁ at *
  generalize (t.place c).wrap = t₁ at *
  have hlt : t₁.row < 25 := Nat.not_le.1 hover
  have hscroll : d₁.moveCursor.scroll = d₁.moveCursor :=
    scroll_of_lt (d := d₁.moveCursor) (by rw [← hp.y] at hlt; exact hlt)
  have hscroll' : t₁.scroll blank = t₁ := if_neg hover
  rw [hscroll, hscroll']
  rcases hp.cells with ⟨hmem, -, hcell⟩ | ⟨x, s, hx, hs, hmem, -, hcell, h79⟩
  · refine ⟨fun hm r hr k hk => ?_, fun hsc => ⟨?_, ?_, ?_⟩⟩
    · rw [hcell]
      change d₁.mem _ = _ ∧ d₁.mem _ = _
      rw [hmem]
      exact hm r hr k hk
    · have hrow := hp.row
      have h24 := hsc.row
      omega
    · exact (congrFun hmem 1920).trans hsc.zero
    · rw [hcell]
      exact hsc.last
  · refine ⟨fun hm r hr k hk => ?_, fun hsc => ⟨?_, ?_, ?_⟩⟩
    · rw [hcell]
      change d₁.mem _ = _ ∧ d₁.mem _ = _
      rw [hmem, ← hty, ← hattr]
      exact hm.put hx hy s r hr k hk
    · have hrow := hp.row
      have h24 := hsc.row
      omega
    · have h24 := hsc.row
      change d₁.mem 1920 = 0
      rw [hmem, mem_fbPut d hx hy, if_neg (by omega), if_neg (by omega)]
      exact hsc.zero
    · have h24 := hsc.row
      have hne : x.toNat ≠ 79 := fun h => by have := h79 h; omega
      rw [hcell]
      unfold Terminal.put
      dsimp only
      rw [if_neg (fun h => hne h.2.symm)]
      exact hsc.last

/-! ## Runs -/

theorem Sane.step {blank : Cell} {d : Display} {t : Terminal} (h : Sane blank d t) (op : Op) :
    Sane blank (d.step op) (t.step blank op) := by
  obtain ⟨⟨hx, hy, hattr, hcol, hrow⟩, hin, hlast, hsym⟩ := h
  cases op with
  | putc c => exact Sane.putc ⟨⟨hx, hy, hattr, hcol, hrow⟩, hin, hlast, hsym⟩ c
  | setFg color =>
    exact ⟨⟨hx, hy, congrArg (fun a => (a &&& (0xF0 : UInt8)) ||| color) hattr, hcol, hrow⟩,
      hin, hlast, hsym⟩
  | setBg color =>
    exact ⟨⟨hx, hy, congrArg (fun a => (a &&& (0x0F : UInt8)) ||| (color <<< (4 : UInt8))) hattr,
      hcol, hrow⟩, hin, hlast, hsym⟩

theorem Sane.run {blank : Cell} {d : Display} {t : Terminal} (h : Sane blank d t) (ops : List Op) :
    Sane blank (d.run ops) (t.run blank ops) := by
  induction ops generalizing d t with
  | nil => exact h
  | cons op ops ih => exact ih (h.step op)

/-- Scrolled once, scrolled forever. -/
theorem Scrolled.run {blank : Cell} {d : Display} {t : Terminal} (h : Sane blank d t)
    (hs : Scrolled blank d t) (ops : List Op) : Scrolled blank (d.run ops) (t.run blank ops) := by
  induction ops generalizing d t with
  | nil => exact hs
  | cons op ops ih =>
    refine ih (h.step op) ?_
    cases op with
    | putc c =>
      by_cases hover : t.Overflows c
      · exact putc_overflows h hover
      · exact (putc_stays h hover).2 hs
    | setFg color => exact ⟨hs.row, hs.zero, hs.last⟩
    | setBg color => exact ⟨hs.row, hs.zero, hs.last⟩

/-- The display shows what the terminal shows if and only if no character has moved the cursor past
the last row. -/
theorem matches_run_iff {blank : Cell} {d : Display} {t : Terminal} (h : Sane blank d t)
    (hm : Matches d t) (ops : List Op) :
    Matches (d.run ops) (t.run blank ops) ↔ t.ScrollFree blank ops := by
  induction ops generalizing d t with
  | nil => exact ⟨fun _ => trivial, fun _ => hm⟩
  | cons op ops ih =>
    cases op with
    | putc c =>
      by_cases hover : t.Overflows c
      · refine ⟨fun hmatch => ?_, fun hfree => absurd hover hfree.1⟩
        exact absurd hmatch (((putc_overflows h hover).run (h.putc c) ops).not_matches
          ((h.putc c).run ops))
      · refine (ih (h.putc c) ((putc_stays h hover).1 hm)).trans ?_
        exact (and_iff_right hover).symm
    | setFg color => exact ih (h.step (.setFg color)) hm
    | setBg color => exact ih (h.step (.setBg color)) hm

/-! ## A cleared screen -/

/-- The cells `clear` has written. -/
theorem clear_cells (cells : List (ℕ × ℕ)) (hcells : ∀ i ∈ cells, i.1 < 25 ∧ i.2 < 80)
    (d : Display) (hd : Inside d) :
    let d' := cells.foldl (fun d i => d.fbPut (UInt8.ofNat i.2) (UInt8.ofNat i.1) 32) d
    d'.cursor = d.cursor ∧ d'.attr = d.attr ∧ Inside d' ∧
      ∀ r < 25, ∀ c < 80, (r, c) ∈ cells ∨
          (d.mem (2 * (80 * r + c)) = 32 ∧ d.mem (2 * (80 * r + c) + 1) = d.attr) →
        d'.mem (2 * (80 * r + c)) = 32 ∧ d'.mem (2 * (80 * r + c) + 1) = d.attr := by
  induction cells generalizing d with
  | nil => exact ⟨rfl, rfl, hd, fun r _ c _ h => h.resolve_left List.not_mem_nil⟩
  | cons i cells ih =>
    obtain ⟨hrow, hcol⟩ := hcells i List.mem_cons_self
    have hx : (UInt8.ofNat i.2).toNat = i.2 :=
      UInt8.toNat_ofNat_of_lt' (show i.2 < 256 by omega)
    have hy : (UInt8.ofNat i.1).toNat = i.1 :=
      UInt8.toNat_ofNat_of_lt' (show i.1 < 256 by omega)
    have hmem := mem_fbPut d (x := UInt8.ofNat i.2) (y := UInt8.ofNat i.1) (by omega) (by omega) 32
    rw [hx, hy] at hmem
    obtain ⟨hcursor, hattr, hin, hall⟩ := ih (fun j hj => hcells j (List.mem_cons_of_mem i hj))
      (d.fbPut (UInt8.ofNat i.2) (UInt8.ofNat i.1) 32)
      (hd.fbPut (by omega) (by omega) 32)
    refine ⟨hcursor, hattr, hin, fun r hr c hc h => hall r hr c hc ?_⟩
    rw [hmem, hmem]
    by_cases hi : (r, c) = i
    · subst hi
      right
      rw [if_pos rfl, if_neg (by omega), if_pos rfl]
      exact ⟨rfl, rfl⟩
    · have hne : 80 * r + c ≠ 80 * i.1 + i.2 := fun heq =>
        hi (Prod.ext (by dsimp only; omega) (by dsimp only; omega))
      rw [if_neg (by omega), if_neg (by omega), if_neg (by omega), if_neg (by omega)]
      exact h.imp_left fun hmem => (List.mem_cons.1 hmem).resolve_left hi

theorem clear_spec {d : Display} (hd : Inside d) :
    d.clear.cursor = d.cursor ∧ d.clear.attr = d.attr ∧ Inside d.clear ∧
      ∀ r < 25, ∀ c < 80,
        d.clear.mem (2 * (80 * r + c)) = 32 ∧ d.clear.mem (2 * (80 * r + c) + 1) = d.attr := by
  have hmem : ∀ r c, (r, c) ∈ (List.range height).product (List.range width) ↔ r < 25 ∧ c < 80 :=
    fun r c => List.mem_product.trans (and_congr List.mem_range List.mem_range)
  unfold Display.clear
  generalize (List.range height).product (List.range width) = cells at hmem
  obtain ⟨hcursor, hattr, hin, hall⟩ := clear_cells cells (fun i hi => (hmem i.1 i.2).1 hi) d hd
  exact ⟨hcursor, hattr, hin, fun r hr c hc => hall r hr c hc (.inl ((hmem r c).2 ⟨hr, hc⟩))⟩

/-- A display on which nothing has been written yet. -/
def Display.start (mem : ℕ → UInt8) (cursor : Cursor) (attr : UInt8) : Display :=
  ⟨mem, [], [], cursor, attr⟩

/-- The terminal of a cleared display. -/
def cleared (cursor : Cursor) (attr : UInt8) : Terminal :=
  .blankScreen cursor.x.toNat cursor.y.toNat attr

theorem sane_clear (blank : Cell) (mem : ℕ → UInt8) {cursor : Cursor} (hc : cursor.InBounds)
    (attr : UInt8) :
    Sane blank (Display.start mem cursor attr).clear (cleared cursor attr) ∧
      Matches (Display.start mem cursor attr).clear (cleared cursor attr) := by
  obtain ⟨hcursor, hattr, hin, hall⟩ := clear_spec (d := Display.start mem cursor attr)
    (fun a ha => absurd ha List.not_mem_nil)
  generalize (Display.start mem cursor attr).clear = d at *
  have hmatch : Matches d (cleared cursor attr) := fun r hr c hc => hall r hr c hc
  refine ⟨⟨⟨by rw [hcursor]; rfl, by rw [hcursor]; rfl, hattr, hc.1, hc.2⟩, hin, ?_, ?_⟩, hmatch⟩
  · rw [(hmatch 24 (by decide) 79 (by decide)).1]
    exact (by decide : (32 : UInt8) ≠ 0)
  · exact fun _ _ _ => (by decide : (32 : UInt8) ≠ 0)

/-- After `clear`, with the cursor anywhere on the screen: all writes are to the screen and the
cursor stays on it, and the framebuffer is that of the terminal if and only if no character has
moved the cursor past the last row. -/
theorem console_iff (blank : Cell) (mem : ℕ → UInt8) {cursor : Cursor} (hc : cursor.InBounds)
    (attr : UInt8) (ops : List Op) :
    let d := (Display.start mem cursor attr).clear.run ops
    (Inside d ∧ d.cursor.InBounds) ∧
      (Matches d ((cleared cursor attr).run blank ops) ↔
        (cleared cursor attr).ScrollFree blank ops) := by
  obtain ⟨hsane, hmatch⟩ := sane_clear blank mem hc attr
  obtain ⟨⟨hx, hy, -, hcol, hrow⟩, hin, -, -⟩ := hsane.run ops
  exact ⟨⟨hin, by rw [hx]; exact hcol, by rw [hy]; exact hrow⟩, matches_run_iff hsane hmatch ops⟩

theorem console_iff_hello : (⟨0, 0⟩ : Cursor).InBounds ∧
    Matches ((Display.start (fun _ => 0) ⟨0, 0⟩ 0x0F).clear.run [.putc 72, .putc 105, .putc 10])
      ((cleared ⟨0, 0⟩ 0x0F).run ⟨32, 0x0F⟩ [.putc 72, .putc 105, .putc 10]) :=
  have h : (⟨0, 0⟩ : Cursor).InBounds := ⟨by decide, by decide⟩
  ⟨h, (console_iff ⟨32, 0x0F⟩ (fun _ => 0) h 0x0F _).2.2 ⟨by decide, by decide, by decide, trivial⟩⟩

theorem scrollFree_newlines {blank : Cell} {n : ℕ} {t : Terminal}
    (h : t.ScrollFree blank (List.replicate n (.putc 10))) (ht : t.row < 25) : t.row + n < 25 := by
  induction n generalizing t with
  | zero => exact ht
  | succ n ih =>
    have hplace : (t.place 10).wrap = { t with col := 0, row := t.row + 1 } := rfl
    have hrow : t.row + 1 < 25 := by
      have hfits := h.1
      unfold Terminal.Overflows at hfits
      rw [hplace] at hfits
      exact Nat.not_le.1 hfits
    have hnext : (t.putc blank 10).row = t.row + 1 := by
      unfold Terminal.putc Terminal.scroll
      rw [hplace, if_neg (Nat.not_le.2 hrow)]
    have hrest := ih h.2 (hnext ▸ hrow)
    omega

/-- After 25 line feeds from the top the two differ, whatever a blank cell is. -/
theorem console_fails : ¬ ∃ blank,
    Matches ((Display.start (fun _ => 0) ⟨0, 0⟩ 0x0F).clear.run (List.replicate 25 (.putc 10)))
      ((cleared ⟨0, 0⟩ 0x0F).run blank (List.replicate 25 (.putc 10))) := by
  rintro ⟨blank, h⟩
  obtain ⟨hsane, hmatch⟩ :=
    sane_clear blank (fun _ => 0) (show Cursor.InBounds ⟨0, 0⟩ from ⟨by decide, by decide⟩) 0x0F
  exact absurd (scrollFree_newlines ((matches_run_iff hsane hmatch _).1 h) (by decide)) (by decide)

end Ospp.EarlyDisplay
