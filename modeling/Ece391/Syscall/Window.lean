import Ece391.Lib.Sheet
import Ece391.Syscall.Descriptors

/-! What a program sees of its text. `terminal_write` puts the bytes on the screen of the
terminal whose turn it is, on video memory or on a backing page, and on both the screen is
the window on the sheet the text is written on. -/

namespace Ece391.Syscall

open Lib

/-- The screen at `base` is the window on the sheet. -/
def ShowsWindow (base : ℕ) (mem : ℕ → UInt8) (s : Sheet) : Prop :=
  ∀ row < numRows, ∀ col < numCols,
    mem (base + (numCols * row + col) * 2) = s.cell (s.top + row) col ∧
      mem (base + (numCols * row + col) * 2 + 1) = attrib

/-- The loop of a newline ends, with the cursor still on the screen: it takes as many rounds
as the column count has full rows in front of its last one. -/
def NewlineEnds (x y : ℕ) : Prop :=
  ∃ rounds, (∀ i < rounds, numCols < x - numCols * i) ∧ x - numCols * rounds ≤ numCols ∧
    wrapLine x x y = y + rounds ∧ OnScreen (x - numCols * rounds) (y + rounds)

/-- Whatever `putc` is given next, it stays on the screen of the terminal. -/
structure StaysOnPage (cs : Fin 3) (d : Display) : Prop where
  cursor : OnScreen (d.screenX cs) (d.screenY cs)
  newline : NewlineEnds (d.screenX cs) (d.screenY cs)
  cells : ∀ c, CellsIn (d.base cs) (putcCells (d.base cs) c (d.screenX cs) (d.screenY cs))
  stores : ∀ c, Confined (cellBytes (putcCells (d.base cs) c (d.screenX cs) (d.screenY cs)))
    d.vram (putc cs d c).vram

theorem newlineEnds_of_onScreen {x y : ℕ} (h : OnScreen x y) : NewlineEnds x y := by
  have hxy : 80 * y + x < 2000 := h
  have hwrap := wrapLine_eq x x y (by omega) (by omega)
  simp only [Sheet.rows, numCols] at hwrap
  refine ⟨wrapLine x x y - y, fun i hi => ?_, ?_, ?_, ?_⟩
  · simp only [numCols]
    omega
  · simp only [numCols]
    omega
  · omega
  · simp only [OnScreen, numCols]
    omega

theorem staysOnPage_of_onScreen {cs : Fin 3} {d : Display}
    (h : OnScreen (d.screenX cs) (d.screenY cs)) : StaysOnPage cs d :=
  ⟨h, newlineEnds_of_onScreen h, h.putcCells_in (d.base_lt cs), fun c => by
    rw [Display.putc_vram]
    exact putcMem_confined _ c _ _ d.vram⟩

theorem showsWindow_of_shows {base x y : ℕ} {mem : ℕ → UInt8} {s : Sheet} (h : Shows base mem x y s) :
    ShowsWindow base mem s := by
  intro row hrow col hcol
  simp only [numRows, numCols] at hrow hcol
  have hi : 80 * row + col < 2000 := by omega
  refine ⟨?_, h.attribs _ hi⟩
  rw [Sheet.cell, show numCols * (s.top + row) + col = 80 * s.top + (80 * row + col) by
    simp only [numCols]; omega]
  exact h.chars _ hi

theorem puts_base (cs : Fin 3) (d : Display) (l : List UInt8) : (puts cs d l).base cs = d.base cs := by
  induction l generalizing d with
  | nil => rfl
  | cons c l ih => exact (ih (putc cs d c)).trans (Display.putc_base d cs c cs)

/-- The screen of a terminal shows the sheet, with the cursor at the next cell. -/
structure ShowsSheet (cs : Fin 3) (d : Display) (s : Sheet) : Prop where
  window : ShowsWindow (d.base cs) d.vram s
  cursor : numCols * (s.top + d.screenY cs) + d.screenX cs = s.next

/-- The bytes that `terminal_write` takes from its buffer. -/
def written (bytes : ℕ → UInt8) (nbytes : ℤ) : List UInt8 := (List.range nbytes.toNat).map bytes

theorem puts_showsSheet {cs : Fin 3} {d : Display} (h : Cleared cs d) (l : List UInt8) :
    ShowsSheet cs (puts cs d l) (Sheet.write l) ∧ StaysOnPage cs (puts cs d l) := by
  have hshows := h.shows.puts l
  rw [← puts_base cs d l] at hshows
  exact ⟨⟨showsWindow_of_shows hshows, hshows.place⟩, staysOnPage_of_onScreen hshows.onScreen⟩

/-- A text written to a cleared terminal, shown or not, appears in the window on its sheet;
and before every byte of it `putc` is about to stay on the page. -/
theorem terminal_write_shows_sheet (cs : Fin 3) (dev : Devices) (h : Cleared cs dev.display)
    (bytes : ℕ → UInt8) (nbytes : ℤ) (hn : 0 ≤ nbytes) :
    (terminalWrite cs dev (some bytes) nbytes).ret = nbytes ∧
      ShowsSheet cs (terminalWrite cs dev (some bytes) nbytes).dev.display
        (Sheet.write (written bytes nbytes)) ∧
      ∀ l, l <+: written bytes nbytes → StaysOnPage cs (puts cs dev.display l) := by
  have hwrite : terminalWrite cs dev (some bytes) nbytes =
      ⟨nbytes, [], { dev with display := puts cs dev.display (written bytes nbytes) }⟩ := by
    simp only [terminalWrite, if_neg (not_lt.mpr hn), written]
  rw [hwrite]
  exact ⟨rfl, (puts_showsSheet h _).1, fun l _ => (puts_showsSheet h l).2⟩

/-- The screen that is shown, after `clear` and `clear_set`. -/
def clearedDevices : Devices :=
  { blankDevices with display := clearSet (clear blankDevices.display) }

/-- Two lines on the screen that is shown. -/
theorem terminal_write_shows_sheet_lines :
    ShowsSheet 0 (terminalWrite 0 clearedDevices (some (bufMem [0x61, newline, 0x62])) 3).dev.display
      (Sheet.write [0x61, newline, 0x62]) :=
  (terminal_write_shows_sheet 0 clearedDevices (clearSet_cleared blankDevices.display)
    (bufMem [0x61, newline, 0x62]) 3 (by decide)).2.1

end Ece391.Syscall
