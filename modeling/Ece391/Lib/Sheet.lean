import Ece391.Lib.Pages
import Ece391.Support.Runs

/-! What the text screen is for: a window on a sheet of paper that goes on downwards. The
sheet has rows of 80 cells; a byte fills the next cell of the current line, which may run
over several rows, and a newline goes to the row below the last one of the line. The window
shows the 25 rows that end with the row of the next cell. -/

namespace Ece391.Lib

open Function (update)
open Support.Runs

/-- The cells row after row, the first row of the current line, and the cells of it that are
filled. -/
structure Sheet where
  text : ℕ → UInt8
  row : ℕ
  len : ℕ

namespace Sheet

def cell (s : Sheet) (row col : ℕ) : UInt8 := s.text (numCols * row + col)

def blank : Sheet := ⟨fun _ => asciiSpace, 0, 0⟩

/-- The rows of a line with `len` filled cells; an empty line has one, too. -/
def rows (len : ℕ) : ℕ := max 1 ((len + (numCols - 1)) / numCols)

/-- The place of the next cell. -/
def next (s : Sheet) : ℕ := numCols * s.row + s.len

/-- The first row of the window. -/
def top (s : Sheet) : ℕ := s.next / numCols - (numRows - 1)

def put (s : Sheet) (c : UInt8) : Sheet :=
  if c = newline ∨ c = carriageReturn then { s with row := s.row + rows s.len, len := 0 }
  else { s with text := update s.text s.next c, len := s.len + 1 }

/-- The sheet after a text. -/
def write (l : List UInt8) : Sheet := l.foldl put blank

end Sheet

/-- The screen at `base` with its cursor at `(x, y)` shows the sheet. -/
structure Shows (base : ℕ) (mem : ℕ → UInt8) (x y : ℕ) (s : Sheet) : Prop where
  chars : ∀ i < 2000, mem (base + i * 2) = s.text (80 * s.top + i)
  attribs : ∀ i < 2000, mem (base + i * 2 + 1) = attrib
  place : 80 * (s.top + y) + x = s.next
  /-- A line that begins above the window has lost whole rows of its column count. -/
  line : s.top + y = s.row ∨ y = 0 ∧ s.row < s.top ∧ 0 < x
  onScreen : OnScreen x y
  unwritten : ∀ n, s.next ≤ n → s.text n = asciiSpace

/-! ### The rows that move up -/

section Scroll
variable (base : ℕ) (mem : ℕ → UInt8)

/-- The first `n` cells have moved up by a row. -/
def Moved (n : ℕ) (mem' : ℕ → UInt8) : Prop :=
  ∀ i < 2000, mem' (base + i * 2) = (if i < n then mem (base + (i + 80) * 2) else mem (base + i * 2)) ∧
    mem' (base + i * 2 + 1) = if i < n then attrib else mem (base + i * 2 + 1)

variable {base mem}

theorem setCell_get (base a i : ℕ) (c : UInt8) (m : ℕ → UInt8) :
    setCell m (base + a * 2) c (base + i * 2) = (if i = a then c else m (base + i * 2)) ∧
      setCell m (base + a * 2) c (base + i * 2 + 1) = if i = a then attrib else m (base + i * 2 + 1) := by
  simp only [setCell, Function.update_apply]
  constructor
  · split_ifs <;> first | rfl | omega
  · split_ifs <;> first | rfl | omega

theorem Moved.step {n : ℕ} (hn : n < 1920) {m : ℕ → UInt8} (h : Moved base mem n m) :
    Moved base mem (n + 1) (setCell m (base + n * 2) (m (base + (n + 80) * 2))) := by
  intro i hi
  -- the cell below has not been overwritten yet
  have hbelow := (h (n + 80) (by omega)).1
  rw [if_neg (by omega)] at hbelow
  obtain ⟨hchar, hattrib⟩ := h i hi
  rw [(setCell_get base n i _ m).1, (setCell_get base n i _ m).2, hbelow, hchar, hattrib]
  rcases Nat.lt_trichotomy i n with hlt | rfl | hgt
  · rw [if_neg hlt.ne, if_neg hlt.ne, if_pos hlt, if_pos hlt, if_pos (by omega), if_pos (by omega)]
    exact ⟨rfl, rfl⟩
  · rw [if_pos rfl, if_pos rfl, if_pos (by omega), if_pos (by omega)]
    exact ⟨rfl, rfl⟩
  · rw [if_neg hgt.ne', if_neg hgt.ne', if_neg hgt.not_gt, if_neg hgt.not_gt, if_neg (by omega),
      if_neg (by omega)]
    exact ⟨rfl, rfl⟩

/-- The first loop of a scroll. -/
def movedRows (base : ℕ) (mem : ℕ → UInt8) : ℕ → UInt8 :=
  (List.range (numRows - 1)).foldl (fun mem i => (List.range numCols).foldl (fun mem j =>
    setCell mem (base + (numCols * i + j) * 2) (mem (base + (numCols * (i + 1) + j) * 2))) mem) mem

theorem movedRows_moved : Moved base mem 1920 (movedRows base mem) := by
  apply invariant_range (fun r m => Moved base mem (80 * r) m) 24
  · exact fun i _ => by simp
  · intro r hr m hm
    apply invariant_range (fun j m => Moved base mem (80 * r + j) m) 80 hm
    intro j hj m hm
    rw [show numCols * (r + 1) + j = 80 * r + j + 80 by simp only [numCols]; omega]
    exact hm.step (by omega)

/-- All rows have moved up, and the first `n` cells of the last row are blank. -/
def Blanked (base : ℕ) (mem : ℕ → UInt8) (n : ℕ) (mem' : ℕ → UInt8) : Prop :=
  ∀ i < 2000, mem' (base + i * 2) = (if i < 1920 then mem (base + (i + 80) * 2)
      else if i < 1920 + n then asciiSpace else mem (base + i * 2)) ∧
    mem' (base + i * 2 + 1) = if i < 1920 + n then attrib else mem (base + i * 2 + 1)

theorem Blanked.step {n : ℕ} {m : ℕ → UInt8} (h : Blanked base mem n m) :
    Blanked base mem (n + 1) (setCell m (base + (1920 + n) * 2) asciiSpace) := by
  intro i hi
  obtain ⟨hchar, hattrib⟩ := h i hi
  rw [(setCell_get base (1920 + n) i _ m).1, (setCell_get base (1920 + n) i _ m).2, hchar, hattrib]
  constructor
  · split_ifs <;> first | rfl | omega
  · split_ifs <;> first | rfl | omega

theorem scrollRows_eq (base : ℕ) (mem : ℕ → UInt8) :
    scrollRows base mem = (List.range 80).foldl (fun mem j =>
      setCell mem (base + (1920 + j) * 2) asciiSpace) (movedRows base mem) := rfl

/-- After a scroll every row is the one below it, and the last row is blank. -/
theorem scrollRows_get {i : ℕ} (hi : i < 2000) :
    scrollRows base mem (base + i * 2) = (if i < 1920 then mem (base + (i + 80) * 2) else asciiSpace) ∧
      scrollRows base mem (base + i * 2 + 1) = attrib := by
  have hblanked : Blanked base mem 80 (scrollRows base mem) := by
    rw [scrollRows_eq]
    apply invariant_range (fun j m => Blanked base mem j m) 80
    · intro i hi
      rw [(movedRows_moved i hi).1, (movedRows_moved i hi).2]
      exact ⟨by split_ifs <;> rfl, rfl⟩
    · exact fun j _ m hm => hm.step
  obtain ⟨hchar, hattrib⟩ := hblanked i hi
  rw [hchar, hattrib, if_pos (show i < 1920 + 80 by omega), if_pos (show i < 1920 + 80 by omega)]
  exact ⟨rfl, rfl⟩

end Scroll

/-! ### The cursor -/

/-- The loop of a newline walks down until at most one row of the line is left. -/
theorem wrapLine_eq (fuel x y : ℕ) (hx : x ≤ 80 * (fuel + 1)) (hy : 80 * y + x < 2 ^ 31) :
    wrapLine fuel x y + 1 = y + Sheet.rows x := by
  induction fuel generalizing x y with
  | zero =>
    simp only [wrapLine, Sheet.rows, numCols]
    omega
  | succ fuel ih =>
    rw [wrapLine]
    simp only [numCols]
    split_ifs with h
    · rw [u32_of_lt (by omega), ih (x - 80) (y + 1) (by omega) (by omega)]
      simp only [Sheet.rows, numCols]
      omega
    · simp only [Sheet.rows, numCols]
      omega

section Step
variable {base x y : ℕ} {mem : ℕ → UInt8} {s : Sheet}

/-- The top of the window follows the row of the next cell. -/
theorem top_le (s : Sheet) : s.next < 80 * (s.top + 25) := by
  simp only [Sheet.top, numCols, numRows]
  omega

/-- Before `putc` looks whether to scroll, the cursor is at the next cell of the new sheet,
one row below the window at most. -/
theorem Shows.landing (h : Shows base mem x y s) (c : UInt8) :
    80 * (s.top + (landing c x y).2) + (landing c x y).1 = (s.put c).next ∧
      80 * (landing c x y).2 + (landing c x y).1 ≤ 2000 ∧
      (s.top + (landing c x y).2 = (s.put c).row ∨
        (landing c x y).2 = 0 ∧ (s.put c).row < s.top ∧ 0 < (landing c x y).1) := by
  have hxy : 80 * y + x < 2000 := h.onScreen
  have hplace := h.place
  have hline := h.line
  simp only [Sheet.next, numCols] at hplace
  have hbound := h.onScreen.landing (c := c)
  rw [Lib.landing] at hbound ⊢
  unfold Sheet.put
  split_ifs at hbound ⊢ with hc
  · have hwrap := wrapLine_eq x x y (by omega) (by omega)
    rw [hwrap, u32_of_lt (by simp only [Sheet.rows, numCols]; omega)] at hbound ⊢
    -- the rows of the line below the top of the window
    have hrows : s.top + (y + Sheet.rows x) = s.row + Sheet.rows s.len := by
      simp only [Sheet.rows, numCols]
      omega
    simp only [Sheet.next, numCols, hrows] at hbound ⊢
    exact ⟨trivial, by omega, .inl trivial⟩
  · rw [u32_of_lt (by omega)]
    simp only [Sheet.next, numCols]
    refine ⟨by omega, by omega, ?_⟩
    omega

theorem Sheet.next_le_put (s : Sheet) (c : UInt8) : s.next ≤ (s.put c).next := by
  unfold Sheet.put
  split_ifs
  · simp only [Sheet.next, Sheet.rows, numCols]
    omega
  · exact Nat.le_succ _

theorem Shows.unwritten_put (h : Shows base mem x y s) (c : UInt8) {n : ℕ} (hn : (s.put c).next ≤ n) :
    (s.put c).text n = asciiSpace := by
  have hold := h.unwritten n ((s.next_le_put c).trans hn)
  unfold Sheet.put at hn ⊢
  split_ifs at hn ⊢
  · exact hold
  · have hne : n ≠ s.next := by
      simp only [Sheet.next] at hn ⊢
      omega
    rw [← hold]
    exact Function.update_of_ne hne _ _

/-- The screen with the new byte on it, before `putc` looks whether to scroll. -/
theorem Shows.stored (h : Shows base mem x y s) (hb : base + 4000 < 2 ^ 32) (c : UInt8) {i : ℕ}
    (hi : i < 2000) {mem' : ℕ → UInt8}
    (hmem : mem' = if c = newline ∨ c = carriageReturn then mem
      else setCell mem (cellAddress base x y) c) :
    mem' (base + i * 2) = (s.put c).text (80 * s.top + i) ∧ mem' (base + i * 2 + 1) = attrib := by
  subst hmem
  unfold Sheet.put
  split_ifs with hc
  · exact ⟨h.chars i hi, h.attribs i hi⟩
  · have hplace := h.place
    obtain ⟨hchar, hattrib⟩ := setCell_get base (80 * y + x) i c mem
    have hiff : i = 80 * y + x ↔ 80 * s.top + i = s.next := by omega
    have htext : update s.text s.next c (80 * s.top + i) =
        if i = 80 * y + x then c else s.text (80 * s.top + i) := by
      simp only [Function.update_apply, hiff]
    rw [h.onScreen.cellAddress hb, hchar, hattrib, h.chars i hi, h.attribs i hi, ite_self]
    exact ⟨htext.symm, rfl⟩

theorem overflows_iff {p : ℕ × ℕ} (hp : 80 * p.2 + p.1 ≤ 2000) :
    Overflows p ↔ 80 * p.2 + p.1 = 2000 := by
  simp only [Overflows, numCols, numRows]
  rw [u32_of_lt (by omega)]
  omega

/-- A scroll with the cursor in the first row takes a row off its column count. -/
theorem u32_back {p : ℕ × ℕ} (hrow : ¬ 0 < p.2) (hp : 80 * p.2 + p.1 = 2000) :
    u32 (p.1 + (2 ^ 32 - numCols)) = 1920 := by
  unfold u32
  simp only [numCols]
  omega

/-- One byte keeps the screen in step with the sheet. -/
theorem Shows.put (h : Shows base mem x y s) (hb : base + 4000 < 2 ^ 32) (c : UInt8) :
    Shows base (putcMem base c x y mem) (putcCursor c x y).1 (putcCursor c x y).2 (s.put c) := by
  obtain ⟨hplace, hlimit, hline⟩ := h.landing c
  obtain ⟨mem', hmem'⟩ : ∃ mem', mem' = if c = newline ∨ c = carriageReturn then mem
      else setCell mem (cellAddress base x y) c := ⟨_, rfl⟩
  have hstored := fun i hi => h.stored hb c (i := i) hi hmem'
  have hunwritten : ∀ n, (s.put c).next ≤ n → (s.put c).text n = asciiSpace :=
    fun n hn => h.unwritten_put c hn
  have htop := top_le s
  have hgrows := s.next_le_put c
  have honScreen := h.onScreen.putcCursor c
  by_cases hover : Overflows (Lib.landing c x y)
  · -- the window moves down by a row
    have hmem : putcMem base c x y mem = scrollRows base mem' := hmem' ▸ if_pos hover
    have hcursor : putcCursor c x y = if 0 < (Lib.landing c x y).2
        then ((Lib.landing c x y).1, (Lib.landing c x y).2 - 1)
        else (u32 ((Lib.landing c x y).1 + (2 ^ 32 - numCols)), (Lib.landing c x y).2) := if_pos hover
    rw [overflows_iff hlimit] at hover
    have hmoved : (s.put c).top = s.top + 1 := by
      simp only [Sheet.top, numCols, numRows] at htop hplace ⊢
      omega
    have hchars : ∀ i < 2000, putcMem base c x y mem (base + i * 2) =
        (s.put c).text (80 * (s.top + 1) + i) := by
      intro i hi
      rw [hmem, (scrollRows_get hi).1]
      split_ifs with hrow
      · rw [(hstored (i + 80) (by omega)).1, show 80 * s.top + (i + 80) = 80 * (s.top + 1) + i by omega]
      · exact (hunwritten _ (by omega)).symm
    refine ⟨fun i hi => by rw [hmoved, hchars i hi], fun i hi => by rw [hmem, (scrollRows_get hi).2],
      ?_, ?_, honScreen, hunwritten⟩
    · rw [hcursor, hmoved]
      split_ifs with hrow
      · simp only
        omega
      · simp only [u32_back hrow hover]
        omega
    · rw [hcursor, hmoved]
      split_ifs with hrow
      · simp only
        omega
      · simp only [u32_back hrow hover]
        omega
  · have hmem : putcMem base c x y mem = mem' := hmem' ▸ if_neg hover
    have hcursor : putcCursor c x y = Lib.landing c x y := if_neg hover
    rw [overflows_iff hlimit] at hover
    have hsame : (s.put c).top = s.top := by
      simp only [Sheet.top, numCols, numRows] at htop hplace ⊢
      omega
    refine ⟨fun i hi => ?_, fun i hi => ?_, ?_, ?_, honScreen, hunwritten⟩
    · rw [hmem, hsame, (hstored i hi).1]
    · rw [hmem, (hstored i hi).2]
    · rw [hcursor, hsame, hplace]
    · rw [hcursor, hsame]
      exact hline

end Step

/-! ### A text -/

/-- The screen of a terminal is blank and its cursor at the start. -/
structure Cleared (t : Fin 3) (d : Display) : Prop where
  chars : ∀ i < 2000, d.vram (d.base t + i * 2) = asciiSpace
  attribs : ∀ i < 2000, d.vram (d.base t + i * 2 + 1) = attrib
  screenX : d.screenX t = 0
  screenY : d.screenY t = 0

/-- A blank screen shows the blank sheet. -/
theorem Cleared.shows {t : Fin 3} {d : Display} (h : Cleared t d) :
    Shows (d.base t) d.vram (d.screenX t) (d.screenY t) .blank := by
  rw [h.screenX, h.screenY]
  exact ⟨h.chars, h.attribs, rfl, .inl rfl, show 80 * 0 + 0 < 2000 by decide, fun _ _ => rfl⟩

/-- The first `n` cells of video memory are blank. -/
def BlankUpTo (n : ℕ) (mem : ℕ → UInt8) : Prop :=
  ∀ i < n, mem (videoMem + i * 2) = asciiSpace ∧ mem (videoMem + i * 2 + 1) = attrib

theorem BlankUpTo.step {n : ℕ} {mem : ℕ → UInt8} (h : BlankUpTo n mem) :
    BlankUpTo (n + 1) (setCell mem (videoMem + n * 2) asciiSpace) := by
  intro i hi
  obtain ⟨hchar, hattrib⟩ := setCell_get videoMem n i asciiSpace mem
  rw [hchar, hattrib]
  rcases Nat.lt_succ_iff_lt_or_eq.mp hi with hlt | rfl
  · rw [if_neg hlt.ne, if_neg hlt.ne]
    exact h i hlt
  · rw [if_pos rfl, if_pos rfl]
    exact ⟨rfl, rfl⟩

theorem clear_vram (d : Display) : (clear d).vram = (List.range (numRows * numCols)).foldl
    (fun mem i => setCell mem (videoMem + i * 2) asciiSpace) d.vram := by
  simp only [clear]

/-- `clear` and `clear_set` clear the screen that is shown. -/
theorem clearSet_cleared (d : Display) : Cleared d.currentTerminal (clearSet (clear d)) := by
  have hblank : BlankUpTo (numRows * numCols) (clear d).vram := by
    rw [clear_vram]
    apply invariant_range BlankUpTo (numRows * numCols)
    · exact fun i hi => absurd hi (Nat.not_lt_zero i)
    · exact fun n _ mem h => h.step
  have hshown : (clearSet (clear d)).currentTerminal = d.currentTerminal := by
    simp only [clearSet, setCursor, clear]
  have hbase : (clearSet (clear d)).base d.currentTerminal = videoMem := by
    rw [Display.base, if_pos hshown.symm]
  have hvram : (clearSet (clear d)).vram = (clear d).vram := by simp only [clearSet, setCursor]
  refine ⟨fun i hi => ?_, fun i hi => ?_, ?_, ?_⟩
  · rw [hbase, hvram]
    exact (hblank i hi).1
  · rw [hbase, hvram]
    exact (hblank i hi).2
  · simp only [clearSet, setCursor, clear, Function.update_self]
  · simp only [clearSet, setCursor, clear, Function.update_self]

/-- A text keeps the screen of the terminal it is written on in step with the sheet. -/
theorem Shows.puts {t : Fin 3} {d : Display} {s : Sheet}
    (h : Shows (d.base t) d.vram (d.screenX t) (d.screenY t) s) (l : List UInt8) :
    Shows (d.base t) (puts t d l).vram ((puts t d l).screenX t) ((puts t d l).screenY t)
      (l.foldl Sheet.put s) := by
  induction l generalizing d s with
  | nil => exact h
  | cons c l ih =>
    have hput := h.put (d.base_lt t) c
    have hrest := ih (d := putc t d c) (s := s.put c)
    rw [Display.putc_base, Display.putc_vram, Display.putc_screenX, Display.putc_screenY,
      Function.update_self, Function.update_self] at hrest
    exact hrest hput

end Ece391.Lib
