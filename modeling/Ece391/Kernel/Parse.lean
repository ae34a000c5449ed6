import Ece391.FileSys.ReadData
import Ece391.FileSys.Lookup

/-! The two checks `execute` makes on a command: `parse` splits it into a file
name and an argument, and `isExe` looks for the magic bytes. The command is read
byte by byte from a list, whose end is the terminator. -/

namespace Ece391.Kernel

open Lib FileSys

abbrev space : UInt8 := 0x20
abbrev maxFileLen : ℕ := 32
abbrev maxArgLen : ℕ := 128

/-- The result of `parse` and what it stored from index 0 on in its two buffers. -/
structure ParseOut where
  ret : ℤ
  filename : List UInt8
  arg : List UInt8

/-- The loop that stores the file name: whether it ended before the limit, the
bytes stored, and what is left of the command. -/
def storeName : (length : ℕ) → List UInt8 → Bool × List UInt8 × List UInt8
  | _, [] => (true, [], [])
  | length, c :: rest =>
    if c = space then (true, [], c :: rest)
    else if length = maxFileLen then (false, [], c :: rest)
    else
      let (ok, stored, left) := storeName (length + 1) rest
      (ok, c :: stored, left)

/-- The loop that stores the argument. -/
def storeArg (limit : ℕ) : (argLen : ℕ) → List UInt8 → Bool × List UInt8
  | _, [] => (true, [])
  | argLen, c :: rest =>
    if argLen = limit then (false, [])
    else
      let (ok, stored) := storeArg limit (argLen + 1) rest
      (ok, c :: stored)

/-- `parse`; a NULL command is `none`. -/
def parse (command : Option CString) : ParseOut :=
  match command with
  | none => ⟨-1, [], []⟩
  | some c =>
    let (ok, name, left) := storeName 0 (c.bytes.dropWhile (· = space))
    if ok = false then ⟨-1, name, [0]⟩
    else match left with
      | [] => ⟨0, name ++ [0], [0]⟩
      | _ :: _ =>
        let (ok, arg) := storeArg (maxArgLen - name.length) 0 (left.dropWhile (· = space))
        if ok = false then ⟨-1, name ++ [0], arg⟩ else ⟨0, name ++ [0], arg ++ [0]⟩

/-- Bytes stored over what a buffer held before. -/
def overlay (stored : List UInt8) (old : ℕ → UInt8) (i : ℕ) : UInt8 := stored.getD i (old i)

/-- `magic_identifiers`. -/
def magicIdentifiers : List UInt8 := [0x7F, 0x45, 0x4C, 0x46]

/-- `isExe`, on a stack buffer that held `buf` before. -/
def isExe (img : Image) (buf : ℕ → UInt8) (filename : CString) : Bool :=
  match readDentryByName img filename with
  | none => false
  | some temp =>
    let out := readData img temp.inodeNum 0 true 4
    strncmp (overlay out.bytes buf) (bufMem magicIdentifiers) 4 = 0

end Ece391.Kernel
