import Ece391.Lib.Sheet

/-! What a terminal is for. The cells it has written lie row after row on a roll, and the
window shows 25 rows of it. The window moves down when the next cell would lie below it and
never up again; Backspace takes back the last cell of the current line, and clearing the
screen starts a new roll. -/

namespace Ece391.Lib

open Function (update)

/-- The cells with their attributes, the first row of the window, the first row of the
current line, and the cells of it that are filled. -/
structure Roll where
  text : ℕ → UInt8 × UInt8
  top : ℕ
  row : ℕ
  len : ℕ

namespace Roll

/-- The place of the next cell. -/
def next (r : Roll) : ℕ := numCols * r.row + r.len

/-- A cell nothing has been written in. -/
abbrev bare : UInt8 × UInt8 := (asciiSpace, attrib)

/-- The window follows the next cell. To move it every cell is written anew. -/
def follow (r : Roll) : Roll :=
  if r.next < numCols * (r.top + numRows) then r
  else { r with text := fun n => ((r.text n).1, attrib), top := r.top + 1 }

def feed (r : Roll) (c : UInt8) : Roll :=
  if c = newline ∨ c = carriageReturn then { r with row := r.row + Sheet.rows r.len, len := 0 }
  else { r with text := update r.text r.next (c, attrib), len := r.len + 1 }

def put (r : Roll) (c : UInt8) : Roll := (r.feed c).follow

/-- A line that begins above the window and has lost all its cells below the top is taken
to begin there. -/
def settle (r : Roll) : Roll :=
  if r.next = numCols * r.top then { r with row := r.top, len := 0 } else r

def erase (r : Roll) : Roll :=
  settle { r with text := update r.text (r.next - 1) (0, attrib), len := r.len - 1 }

def new : Roll := ⟨fun _ => bare, 0, 0, 0⟩

/-- What is done to a roll. -/
inductive Mark
  | put (c : UInt8)
  | erase
  | wipe
  deriving DecidableEq

def mark (r : Roll) : Mark → Roll
  | .put c => r.put c
  | .erase => r.erase
  | .wipe => new

/-- What a text is made of. -/
def marks (l : List UInt8) : List Mark := l.map .put

end Roll

/-- The cell number `i` of the screen at `base`. -/
def cellAt (base : ℕ) (mem : ℕ → UInt8) (i : ℕ) : UInt8 × UInt8 :=
  (mem (base + i * 2), mem (base + i * 2 + 1))

/-- The screen at `base` with its cursor at `(x, y)` is the window on the roll. -/
structure Displays (base : ℕ) (mem : ℕ → UInt8) (x y : ℕ) (r : Roll) : Prop where
  cells : ∀ i < 2000, cellAt base mem i = r.text (80 * r.top + i)
  place : 80 * (r.top + y) + x = r.next
  /-- Of a line that begins above the window some cells are left. -/
  line : r.top + y = r.row ∨ y = 0 ∧ r.row < r.top ∧ 0 < x
  onScreen : OnScreen x y
  below : ∀ n, 80 * (r.top + 25) ≤ n → r.text n = Roll.bare

/-- The roll of a terminal whose screen and cursor are taken as they are found. -/
def Roll.found (d : Display) (t : Fin 3) : Roll where
  text n := if n < 2000 then cellAt (d.base t) d.vram n else bare
  top := 0
  row := d.screenY t
  len := d.screenX t

theorem Display.Inside.found {d : Display} (h : d.Inside) (t : Fin 3) :
    Displays (d.base t) d.vram (d.screenX t) (d.screenY t) (.found d t) where
  cells i hi := by simp only [Roll.found, Nat.mul_zero, Nat.zero_add, if_pos hi]
  place := by simp only [Roll.found, Roll.next, numCols, Nat.zero_add]
  line := .inl (Nat.zero_add _)
  onScreen := h t
  below n hn := if_neg (not_lt.mpr hn)

section Step
variable {base x y : ℕ} {mem : ℕ → UInt8} {r : Roll}

theorem cellAt_setCell (base a i : ℕ) (c : UInt8) (mem : ℕ → UInt8) :
    cellAt base (setCell mem (base + a * 2) c) i =
      if i = a then (c, attrib) else cellAt base mem i := by
  obtain ⟨hchar, hattrib⟩ := setCell_get base a i c mem
  rw [cellAt, hchar, hattrib]
  split_ifs <;> rfl

theorem cellAt_scrollRows {i : ℕ} (hi : i < 2000) :
    cellAt base (scrollRows base mem) i =
      if i < 1920 then ((cellAt base mem (i + 80)).1, attrib) else Roll.bare := by
  rw [cellAt, (scrollRows_get hi).1, (scrollRows_get hi).2]
  split_ifs <;> rfl

/-! ### A byte -/

/-- Before `putc` looks whether to scroll, the cursor is at the next cell, one row below the
window at most. -/
theorem Displays.landing (h : Displays base mem x y r) (c : UInt8) :
    80 * (r.top + (landing c x y).2) + (landing c x y).1 = (r.feed c).next ∧
      80 * (landing c x y).2 + (landing c x y).1 ≤ 2000 ∧
      (r.top + (landing c x y).2 = (r.feed c).row ∨
        (landing c x y).2 = 0 ∧ (r.feed c).row < r.top ∧ 0 < (landing c x y).1) := by
  have hxy : 80 * y + x < 2000 := h.onScreen
  have hplace := h.place
  have hline := h.line
  have hbound := h.onScreen.landing (c := c)
  simp only [Roll.next, numCols] at hplace ⊢
  rw [Lib.landing] at hbound ⊢
  unfold Roll.feed
  split_ifs at hbound ⊢ with hc
  · have hwrap := wrapLine_eq x x y (by omega) (by omega)
    rw [hwrap, u32_of_lt (by simp only [Sheet.rows, numCols]; omega)] at hbound ⊢
    have hrows : r.top + (y + Sheet.rows x) = r.row + Sheet.rows r.len := by
      simp only [Sheet.rows, numCols]
      omega
    simp only [hrows] at hbound ⊢
    exact ⟨trivial, by omega, .inl trivial⟩
  · rw [u32_of_lt (by omega)]
    dsimp only
    exact ⟨by omega, by omega, by omega⟩

/-- The screen with the new byte on it, before `putc` looks whether to scroll. -/
theorem Displays.stored (h : Displays base mem x y r) (hb : base + 4000 < 2 ^ 32) (c : UInt8) {i : ℕ}
    (hi : i < 2000) {mem' : ℕ → UInt8}
    (hmem : mem' = if c = newline ∨ c = carriageReturn then mem
      else setCell mem (cellAddress base x y) c) :
    cellAt base mem' i = (r.feed c).text (80 * r.top + i) := by
  subst hmem
  unfold Roll.feed
  split_ifs with hc
  · exact h.cells i hi
  · have hplace := h.place
    have hiff : i = 80 * y + x ↔ 80 * r.top + i = r.next := by omega
    rw [h.onScreen.cellAddress hb, cellAt_setCell, h.cells i hi]
    simp only [Function.update_apply, hiff]

theorem Displays.below_feed (h : Displays base mem x y r) (c : UInt8) {n : ℕ}
    (hn : 80 * (r.top + 25) ≤ n) : (r.feed c).text n = Roll.bare := by
  have hxy : 80 * y + x < 2000 := h.onScreen
  have hplace := h.place
  unfold Roll.feed
  split_ifs
  · exact h.below n hn
  · have hne : n ≠ r.next := by omega
    exact (Function.update_of_ne hne _ _).trans (h.below n hn)

theorem Roll.feed_top (r : Roll) (c : UInt8) : (r.feed c).top = r.top := by
  unfold Roll.feed
  split_ifs <;> rfl

theorem Displays.put (h : Displays base mem x y r) (hb : base + 4000 < 2 ^ 32) (c : UInt8) :
    Displays base (putcMem base c x y mem) (putcCursor c x y).1 (putcCursor c x y).2 (r.put c) := by
  obtain ⟨hplace, hlimit, hline⟩ := h.landing c
  obtain ⟨mem', hmem'⟩ : ∃ mem', mem' = if c = newline ∨ c = carriageReturn then mem
      else setCell mem (cellAddress base x y) c := ⟨_, rfl⟩
  have hstored := fun i hi => h.stored hb c (i := i) hi hmem'
  have honScreen := h.onScreen.putcCursor c
  have htop := r.feed_top c
  have hover := overflows_iff hlimit
  unfold Roll.put Roll.follow
  simp only [numCols, numRows]
  by_cases hover' : Overflows (Lib.landing c x y)
  · -- the window moves down by a row
    have hend := hover.mp hover'
    have hmem : putcMem base c x y mem = scrollRows base mem' := hmem' ▸ if_pos hover'
    have hcursor : putcCursor c x y = if 0 < (Lib.landing c x y).2
        then ((Lib.landing c x y).1, (Lib.landing c x y).2 - 1)
        else (u32 ((Lib.landing c x y).1 + (2 ^ 32 - numCols)), (Lib.landing c x y).2) :=
      if_pos hover'
    rw [if_neg (by omega)]
    refine ⟨fun i hi => ?_, ?_, ?_, honScreen, fun n hn => ?_⟩
    · rw [hmem, cellAt_scrollRows hi]
      dsimp only
      rw [htop]
      split_ifs with hrow
      · rw [hstored (i + 80) (by omega), show 80 * r.top + (i + 80) = 80 * (r.top + 1) + i by omega]
      · rw [h.below_feed c (by omega)]
    · rw [hcursor]
      simp only [Roll.next, numCols] at hplace ⊢
      split_ifs with hrow
      · dsimp only
        omega
      · simp only [u32_back hrow hend]
        omega
    · rw [hcursor]
      split_ifs with hrow
      · dsimp only
        omega
      · simp only [u32_back hrow hend]
        omega
    · dsimp only at hn ⊢
      rw [h.below_feed c (by omega)]
  · have hroom := mt hover.mpr hover'
    have hmem : putcMem base c x y mem = mem' := hmem' ▸ if_neg hover'
    have hcursor : putcCursor c x y = Lib.landing c x y := if_neg hover'
    rw [if_pos (by omega)]
    refine ⟨fun i hi => ?_, ?_, ?_, honScreen, fun n hn => ?_⟩
    · rw [hmem, hstored i hi, htop]
    · rw [hcursor, htop, hplace]
    · rw [hcursor, htop]
      exact hline
    · exact h.below_feed c (htop ▸ hn)

/-! ### Backspace -/

/-- Backspace away from the margin. -/
theorem Displays.erase (h : Displays base mem x y r) (hx : 0 < x) :
    Displays base (setCell mem (base + (80 * y + (x - 1)) * 2) 0) (x - 1) y r.erase := by
  have hxy : 80 * y + x < 2000 := h.onScreen
  have hplace := h.place
  have hline := h.line
  simp only [Roll.next, numCols] at hplace
  have hcells : ∀ i < 2000, cellAt base (setCell mem (base + (80 * y + (x - 1)) * 2) 0) i =
      update r.text (r.next - 1) (0, attrib) (80 * r.top + i) := by
    intro i hi
    have hiff : i = 80 * y + (x - 1) ↔ 80 * r.top + i = r.next - 1 := by
      simp only [Roll.next, numCols]
      omega
    rw [cellAt_setCell, h.cells i hi]
    simp only [Function.update_apply, hiff]
  have hbelow : ∀ n, 80 * (r.top + 25) ≤ n →
      update r.text (r.next - 1) (0, attrib) n = Roll.bare := by
    intro n hn
    have hne : n ≠ r.next - 1 := by
      simp only [Roll.next, numCols]
      omega
    exact (Function.update_of_ne hne _ _).trans (h.below n hn)
  have honScreen : OnScreen (x - 1) y := by
    unfold OnScreen
    omega
  unfold Roll.erase Roll.settle
  split_ifs with hempty
  · simp only [Roll.next, numCols] at hempty
    refine ⟨hcells, ?_, .inl ?_, honScreen, hbelow⟩
    · simp only [Roll.next, numCols]
      omega
    · dsimp only
      omega
  · simp only [Roll.next, numCols] at hempty
    refine ⟨hcells, ?_, ?_, honScreen, hbelow⟩
    · simp only [Roll.next, numCols]
      omega
    · dsimp only
      omega

end Step

/-- A blank screen is the window on a new roll. -/
theorem Cleared.displays {t : Fin 3} {d : Display} (h : Cleared t d) :
    Displays (d.base t) d.vram (d.screenX t) (d.screenY t) .new := by
  rw [h.screenX, h.screenY]
  exact ⟨fun i hi => Prod.ext (h.chars i hi) (h.attribs i hi), rfl, .inl rfl,
    show 80 * 0 + 0 < 2000 by decide, fun _ _ => rfl⟩

end Ece391.Lib
