import Ece391.Lib.Screen

/-! The keyboard handler of `keyboard.c` with the line buffers of the terminals, and
the switch between terminals. A scan code first updates the modifier keys and is
then decoded to what the key means; the handler acts on that. What a key asks of
the rest of the kernel is handed back as a request. -/

namespace Ece391.Devices

open Function (update)
open Lib

/-- `capsChecker`. -/
inductive CapslockState
  | state0 | state1 | state2 | state3
  deriving DecidableEq

/-- The modifier keys. -/
structure Modifiers where
  shift : Bool
  capslock : Bool
  capsChecker : CapslockState
  control : Bool
  leftAlt : Bool

/-- The static data of `keyboard.c`. A flag of `readFlag` is on while a reader is
locked. `keyBuf t` is memory from the start of the buffer on. -/
structure Keyboard where
  mods : Modifiers
  keybufferCount : Fin 3 → ℕ
  keyBuf : Fin 3 → ℕ → UInt8
  readFlag : Fin 3 → Bool

/-- The keyboard and the screens it shows its keys on. -/
structure Console where
  keys : Keyboard
  display : Display

/-- `keyboard_init`, which leaves the bytes of the buffers as they are. -/
def keyboardInit (kb : Keyboard) : Keyboard :=
  { kb with
    mods := ⟨false, false, .state0, false, false⟩
    keybufferCount := fun _ => 0
    readFlag := fun _ => false }

/-- Cleared memory behind the keyboard and the screens. -/
def blankConsole : Console where
  keys := ⟨⟨false, false, .state0, false, false⟩, fun _ => 0, fun _ _ => 0, fun _ => false⟩
  display := ⟨fun _ => 0, fun _ => 0, fun _ => 0, 0, 0⟩

abbrev keyboardBufferSize : ℕ := 0x7F
abbrev space : UInt8 := 0x20
abbrev tabLength : ℕ := 4
abbrev ctrlClearVal : UInt8 := 2

/-! ### Scan codes -/

abbrev lShiftRelease : UInt8 := 0xAA
abbrev rShiftRelease : UInt8 := 0xB6
abbrev lShiftPressed : UInt8 := 0x2A
abbrev rShiftPressed : UInt8 := 0x36
abbrev capslockPressed : UInt8 := 0x3A
abbrev capslockRelease : UInt8 := 0xBA
abbrev controlPressed : UInt8 := 0x1D
abbrev controlRelease : UInt8 := 0x9D
abbrev leftAltPressed : UInt8 := 0x38
abbrev leftAltRelease : UInt8 := 0xB8
abbrev backspacePressed : UInt8 := 0x0E
abbrev tabPressed : UInt8 := 0x0F
abbrev lKey : UInt8 := 0x26
abbrev cKey : UInt8 := 0x2E
abbrev f1Key : UInt8 := 0x3B
abbrev f2Key : UInt8 := 0x3C
abbrev f3Key : UInt8 := 0x3D

def ascii (l : List Char) : List UInt8 := l.map fun c => c.toNat.toUInt8

def keymapTable : List UInt8 :=
  [0, 0] ++ ascii ['1', '2', '3', '4', '5', '6', '7', '8', '9', '0', '-', '='] ++ [0, 0] ++
  ascii ['q', 'w', 'e', 'r', 't', 'y', 'u', 'i', 'o', 'p', '[', ']', '\n'] ++ [0] ++
  ascii ['a', 's', 'd', 'f', 'g', 'h', 'j', 'k', 'l', ';'] ++ [0x27, 0x60, 0, 0x5C] ++
  ascii ['z', 'x', 'c', 'v', 'b', 'n', 'm', ',', '.', '/'] ++ [0, 0, 0] ++ ascii [' ']

/-- The fifth entry is the digit 3, as in the table without shift. -/
def keymapShiftTable : List UInt8 :=
  [0, 0] ++ ascii ['!', '@', '3', '$', '%', '^', '&', '*', '(', ')', '_', '+'] ++ [0, 0] ++
  ascii ['Q', 'W', 'E', 'R', 'T', 'Y', 'U', 'I', 'O', 'P'] ++ [0x7B, 0x7D, 0x0A, 0] ++
  ascii ['A', 'S', 'D', 'F', 'G', 'H', 'J', 'K', 'L', ':'] ++ [0x22, 0x7E, 0, 0x7C] ++
  ascii ['Z', 'X', 'C', 'V', 'B', 'N', 'M', '<', '>', '?'] ++ [0, 0, 0] ++ ascii [' ']

def keymapCapslockTable : List UInt8 :=
  [0, 0] ++ ascii ['1', '2', '3', '4', '5', '6', '7', '8', '9', '0', '-', '='] ++ [0, 0] ++
  ascii ['Q', 'W', 'E', 'R', 'T', 'Y', 'U', 'I', 'O', 'P', '[', ']', '\n'] ++ [0] ++
  ascii ['A', 'S', 'D', 'F', 'G', 'H', 'J', 'K', 'L', ';'] ++ [0x27, 0x60, 0, 0x5C] ++
  ascii ['Z', 'X', 'C', 'V', 'B', 'N', 'M', ',', '.', '/'] ++ [0, 0, 0] ++ ascii [' ']

/-- The tables have 256 entries; those behind the last key are 0. -/
def lookup (table : List UInt8) (code : UInt8) : UInt8 := table.getD code.toNat 0

/-- Shift and caps lock together select one of the tables. -/
def keyMapped (m : Modifiers) (code : UInt8) : UInt8 :=
  if (m.shift ^^ m.capslock) = true then
    if m.shift = true then lookup keymapShiftTable code else lookup keymapCapslockTable code
  else lookup keymapTable code

def capsStep (m : Modifiers) (code : UInt8) : Modifiers :=
  if code = capslockPressed ∧ m.capsChecker = .state0 then
    { m with capslock := true, capsChecker := .state1 }
  else if code = capslockRelease ∧ m.capsChecker = .state1 then { m with capsChecker := .state2 }
  else if code = capslockPressed ∧ m.capsChecker = .state2 then
    { m with capslock := false, capsChecker := .state3 }
  else if code = capslockRelease ∧ m.capsChecker = .state3 then { m with capsChecker := .state0 }
  else m

/-- The modifier keys after a scan code. -/
def modifiers (m : Modifiers) (code : UInt8) : Modifiers :=
  let m := if code = lShiftRelease ∨ code = rShiftRelease then { m with shift := false }
    else if code = lShiftPressed ∨ code = rShiftPressed then { m with shift := true } else m
  let m := capsStep m code
  let m := if code = controlPressed then { m with control := true }
    else if code = controlRelease then { m with control := false } else m
  let m := if code = leftAltPressed then { m with leftAlt := true } else m
  if code = leftAltRelease then { m with leftAlt := false } else m

/-- What a key means. -/
inductive Key
  | backspace
  | tab
  | clearScreen
  | switchTo (n : Fin 3)
  | interrupt
  | enter
  | character (c : UInt8)
  | silent
  deriving DecidableEq

/-- The tests of the handler in their order. -/
def decode (m : Modifiers) (code : UInt8) : Key :=
  if code = backspacePressed then .backspace
  else if code = tabPressed then .tab
  else if m.control = true ∧ code = lKey then .clearScreen
  else if m.leftAlt = true ∧ code = f1Key then .switchTo 0
  else if m.leftAlt = true ∧ code = f2Key then .switchTo 1
  else if m.leftAlt = true ∧ code = f3Key then .switchTo 2
  else if m.control = true ∧ code = cKey then .interrupt
  else if keyMapped m code = 0 then .silent
  else if keyMapped m code = newline then .enter
  else .character (keyMapped m code)

/-! ### Terminals -/

/-- `memcpy` of one page. -/
def copyPage (dst src : ℕ) (mem : ℕ → UInt8) : ℕ → UInt8 :=
  fun a => if dst ≤ a ∧ a < dst + 0x1000 then mem (src + (a - dst)) else mem a

def swapVidMem (newTerminal : Fin 3) (d : Display) : Display :=
  let d := { d with vram := copyPage (vidPage d.currentTerminal) videoMem d.vram }
  let d := clear d
  { d with vram := copyPage videoMem (vidPage newTerminal) d.vram }

/-- `terminal_switch` as far as the screens are concerned. -/
def terminalSwitch (newTerminal : Fin 3) (d : Display) : Display :=
  { changeTerminalCursor newTerminal (swapVidMem newTerminal d) with currentTerminal := newTerminal }

/-! ### The handler -/

/-- What is left to do outside this file. -/
inductive Request
  /-- `terminal_switch` sets the first entry of the video page table. -/
  | remap
  | halt (status : UInt8)
  deriving DecidableEq

/-- A byte at the end of the line. -/
def Keyboard.push (kb : Keyboard) (t : Fin 3) (c : UInt8) : Keyboard :=
  { kb with
    keyBuf := update kb.keyBuf t (update (kb.keyBuf t) (kb.keybufferCount t) c)
    keybufferCount := update kb.keybufferCount t (kb.keybufferCount t + 1) }

/-- The newline behind the line, which goes to a waiting reader. -/
def Keyboard.finish (kb : Keyboard) (t : Fin 3) : Keyboard :=
  { kb with
    keyBuf := update kb.keyBuf t (update (kb.keyBuf t) (kb.keybufferCount t) newline)
    readFlag := update kb.readFlag t false
    keybufferCount := update kb.keybufferCount t 0 }

def Keyboard.pop (kb : Keyboard) (t : Fin 3) : Keyboard :=
  { kb with keybufferCount := update kb.keybufferCount t (kb.keybufferCount t - 1) }

/-- A character goes to the line of the visible terminal and to the screen of the
running one, unless the line is full. -/
def typeCharacter (cs : Fin 3) (c : UInt8) (s : Console) : Console :=
  if s.keys.keybufferCount s.display.currentTerminal < keyboardBufferSize then
    ⟨s.keys.push s.display.currentTerminal c, putc cs s.display c⟩
  else s

/-- The handler's answer to a key. -/
def press (cs : Fin 3) (s : Console) : Key → Console × Option Request
  | .backspace =>
    if 0 < s.keys.keybufferCount s.display.currentTerminal then
      (⟨s.keys.pop s.display.currentTerminal, delete s.display⟩, none)
    else (s, none)
  | .tab => ((typeCharacter cs space)^[tabLength] s, none)
  -- the array `readFlag` itself is compared with OFF, so the line is never emptied here
  | .clearScreen => (⟨s.keys, clearSet (clear s.display)⟩, none)
  | .switchTo n => (⟨s.keys, terminalSwitch n s.display⟩, some .remap)
  | .interrupt => (⟨s.keys, putc cs s.display newline⟩, some (.halt ctrlClearVal))
  | .enter => (⟨s.keys.finish s.display.currentTerminal, putc cs s.display newline⟩, none)
  | .character c => (typeCharacter cs c s, none)
  | .silent => (s, none)

/-- The key a scan code stands for. -/
def keyOf (m : Modifiers) (code : UInt8) : Key := decode (modifiers m code) code

/-- `keyboard_handler` while `cs` is running. -/
def keyboardHandler (cs : Fin 3) (s : Console) (code : UInt8) : Console × Option Request :=
  press cs { s with keys := { s.keys with mods := modifiers s.keys.mods code } }
    (keyOf s.keys.mods code)

end Ece391.Devices
