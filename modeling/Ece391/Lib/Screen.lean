import Mathlib

/-! The text screen of `lib.c`: video memory, one backing page and one cursor for
each terminal, and the position last sent to the VGA cursor ports. The cursor
columns and rows are 32-bit words and the addresses computed from them wrap. -/

namespace Ece391.Lib

open Function (update)

/-- Unsigned 32-bit arithmetic. -/
def u32 (n : ℕ) : ℕ := n % 2 ^ 32

abbrev numCols : ℕ := 80
abbrev numRows : ℕ := 25
abbrev asciiSpace : UInt8 := 0x20
abbrev attrib : UInt8 := 0x7
abbrev newline : UInt8 := 0x0A
abbrev carriageReturn : UInt8 := 0x0D

/-- There are terminals, so a number names one. -/
instance terminals_ne_zero : NeZero 3 := ⟨by decide⟩

/-- The visible screen and the screens kept for the other terminals. `vram` is
the memory around `0xB8000` by address; `currentTerminal` is the visible one. -/
structure Display where
  vram : ℕ → UInt8
  screenX : Fin 3 → ℕ
  screenY : Fin 3 → ℕ
  cursor : ℕ
  currentTerminal : Fin 3

abbrev videoMem : ℕ := 0xB8000

/-- `vid_page`: the backing page of a terminal. -/
def vidPage (t : Fin 3) : ℕ := 0xB9000 + 0x1000 * t

/-- A character and its attribute byte. -/
def setCell (mem : ℕ → UInt8) (addr : ℕ) (c : UInt8) : ℕ → UInt8 :=
  update (update mem addr c) (addr + 1) attrib

def clear (d : Display) : Display :=
  { d with
    vram := (List.range (numRows * numCols)).foldl
      (fun mem i => setCell mem (videoMem + i * 2) asciiSpace) d.vram }

/-- The four port writes that place the hardware cursor, a 16-bit position. -/
def setCursor (d : Display) (t : Fin 3) : Display :=
  { d with cursor := (d.screenY t * numCols + d.screenX t) % 2 ^ 16 }

def clearSet (d : Display) : Display :=
  let t := d.currentTerminal
  setCursor { d with screenX := update d.screenX t 0, screenY := update d.screenY t 0 } t

/-- `change_terminal_cursor`. -/
def changeTerminalCursor (newCursor : Fin 3) (d : Display) : Display := setCursor d newCursor

/-- The column is decremented without a check. -/
def delete (d : Display) : Display :=
  let t := d.currentTerminal
  let d := { d with screenX := update d.screenX t (u32 (d.screenX t + (2 ^ 32 - 1))) }
  setCursor { d with
    vram := setCell d.vram (u32 (videoMem + u32 (u32 (numCols * d.screenY t + d.screenX t) * 2))) 0 } t

/-- The loop of a newline that walks down the rows a long line occupies. -/
def wrapLine : (fuel x y : ℕ) → ℕ
  | 0, _, y => y
  | fuel + 1, x, y => if numCols < x then wrapLine fuel (x - numCols) (u32 (y + 1)) else y

/-- Every row moves up by one and the last row becomes blank. -/
def scrollRows (base : ℕ) (mem : ℕ → UInt8) : ℕ → UInt8 :=
  let moved := (List.range (numRows - 1)).foldl (fun mem i =>
    (List.range numCols).foldl (fun mem j =>
      setCell mem (base + (numCols * i + j) * 2) (mem (base + (numCols * (i + 1) + j) * 2))) mem) mem
  (List.range numCols).foldl (fun mem j =>
    setCell mem (base + (numCols * (numRows - 1) + j) * 2) asciiSpace) moved

def scroll (base : ℕ) (t : Fin 3) (d : Display) : Display :=
  let d := if 0 < d.screenY t then { d with screenY := update d.screenY t (d.screenY t - 1) }
    else { d with screenX := update d.screenX t (u32 (d.screenX t + (2 ^ 32 - numCols))) }
  { d with vram := scrollRows base d.vram }

/-- The body that both branches of `putc` share, for a screen at `base`. -/
def putcAt (base : ℕ) (t : Fin 3) (d : Display) (c : UInt8) : Display :=
  let d :=
    if c = newline ∨ c = carriageReturn then
      { d with
        screenX := update d.screenX t 0
        screenY := update d.screenY t (u32 (wrapLine (d.screenX t) (d.screenX t) (d.screenY t) + 1)) }
    else
      { d with
        vram := setCell d.vram
          (u32 (base + u32 (u32 (numCols * d.screenY t + d.screenX t) * 2))) c
        screenX := update d.screenX t (u32 (d.screenX t + 1)) }
  if numCols * numRows ≤ u32 (d.screenY t * numCols + d.screenX t) then scroll base t d else d

/-- `putc` while `currScheduler` is running: on the visible screen with the
hardware cursor, or on the backing page of a terminal that is not shown. -/
def putc (currScheduler : Fin 3) (d : Display) (c : UInt8) : Display :=
  if currScheduler = d.currentTerminal then
    setCursor (putcAt videoMem d.currentTerminal d c) d.currentTerminal
  else putcAt (vidPage currScheduler) currScheduler d c

/-- `puts`, and `printf` of a text without conversions. -/
def puts (currScheduler : Fin 3) (d : Display) (text : List UInt8) : Display :=
  text.foldl (putc currScheduler) d

/-- The bytes of a message. -/
def text (s : String) : List UInt8 := s.toList.map fun c => c.toNat.toUInt8

end Ece391.Lib
