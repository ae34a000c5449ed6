import Ece391.FileSys.Directory
import Ece391.FileSys.ReadData
import Ece391.Lib.Screen

/-! The descriptor table of one process and the four calls on it: `read`, `write`,
`open` and `close` of `system_call.c` with the operations behind the jump tables
of `init_fops_table`. A call that waits for a key or a clock interrupt is taken
from its start to its return; the line it finds in the keyboard buffer is an
argument. Buffers of the caller lie outside the data modelled here. -/

namespace Ece391.Syscall

open Function (update)
open Lib FileSys

/-- The five jump tables of `init_fops_table`. -/
inductive Fops
  | stdinFops | stdoutFops | rtcFops | dirFops | fileFops
  deriving DecidableEq

/-- `file_array_t`. -/
structure FileArray where
  pointer : Fops
  inode : ℕ
  filePosition : ℕ
  flags : ℕ
  deriving DecidableEq

/-- There are slots in the table, so a number names one. -/
instance slots_ne_zero : NeZero 8 := ⟨by decide⟩

abbrev Fds := Fin 8 → FileArray

/-- What the operations share across processes: the screens, the listing position
of `dir_read` and register A of the clock. -/
structure Devices where
  display : Display
  directoryIndex : ℤ
  rtcRegA : UInt8

/-- The devices before anything has been done with them. -/
def blankDevices : Devices := ⟨⟨fun _ => 0, fun _ => 0, fun _ => 0, 0, 0⟩, -1, 0⟩

/-- What one process sees: its own table and the devices. -/
structure Proc where
  fds : Fds
  dev : Devices

/-- The result of a call and the bytes it stored from `buf[0]` on. -/
structure CallOut where
  ret : ℤ
  stored : List UInt8
  proc : Proc

/-- An operation behind a jump table does not touch the table itself. -/
structure OpOut where
  ret : ℤ
  stored : List UInt8
  dev : Devices

/-! ### The operations -/

/-- The copy loop of `terminal_read` from index `i` with `m` iterations to go. -/
def terminalCopy (keyBuf : ℕ → UInt8) (nbytes : ℕ) : (m i : ℕ) → List UInt8
  | 0, _ => []
  | m + 1, i =>
    if i = nbytes - 1 then [newline]
    else if keyBuf i = newline then [keyBuf i]
    else keyBuf i :: terminalCopy keyBuf nbytes m (i + 1)

def terminalRead (keyBuf : ℕ → UInt8) (dev : Devices) (buf : Bool) (nbytes : ℤ) : OpOut :=
  if buf = false ∨ nbytes < 0 then ⟨-1, [], dev⟩
  else
    let stored := terminalCopy keyBuf nbytes.toNat nbytes.toNat 0
    ⟨stored.length, stored, dev⟩

def terminalWrite (cs : Fin 3) (dev : Devices) (buf : Option (ℕ → UInt8)) (nbytes : ℤ) : OpOut :=
  match buf with
  | none => ⟨-1, [], dev⟩
  | some bytes =>
    if nbytes < 0 then ⟨-1, [], dev⟩
    else ⟨nbytes, [],
      { dev with display := puts cs dev.display ((List.range nbytes.toNat).map bytes) }⟩

def invalidReadOp (dev : Devices) : OpOut := ⟨-1, [], dev⟩

def invalidWriteOp (dev : Devices) : OpOut := ⟨-1, [], dev⟩

/-- `rtc_open`: 2 Hz. -/
def rtcOpen (dev : Devices) : Devices := { dev with rtcRegA := (dev.rtcRegA &&& 0xF0) ||| 0x0F }

def rtcRead (dev : Devices) : OpOut := ⟨0, [], dev⟩

/-- The rate bits for a frequency. -/
def rtcRate (value : UInt32) : Option UInt8 :=
  if value = 0 then some 0x00 else if value = 2 then some 0x0F else if value = 4 then some 0x0E
  else if value = 8 then some 0x0D else if value = 16 then some 0x0C
  else if value = 32 then some 0x0B else if value = 64 then some 0x0A
  else if value = 128 then some 0x09 else if value = 256 then some 0x08
  else if value = 512 then some 0x07 else if value = 1024 then some 0x06 else none

/-- The little-endian word in four bytes of memory. -/
def word32 (mem : ℕ → UInt8) : UInt32 :=
  (mem 0).toUInt32 ||| (mem 1).toUInt32 <<< 8 ||| (mem 2).toUInt32 <<< 16 |||
    (mem 3).toUInt32 <<< 24

def rtcWrite (dev : Devices) (buf : Option (ℕ → UInt8)) (nbytes : ℤ) : OpOut :=
  match buf with
  | none => ⟨-1, [], dev⟩
  | some bytes =>
    let value := word32 bytes
    if nbytes ≠ 4 then ⟨-1, [], dev⟩
    else if value &&& (value - 1) ≠ 0 then ⟨-1, [], dev⟩
    else match rtcRate value with
      | none => ⟨-1, [], dev⟩
      | some r => ⟨0, [], { dev with rtcRegA := (dev.rtcRegA &&& 0xF0) ||| (r &&& 0x0F) }⟩

def dirReadOp (img : Image) (dev : Devices) (buf : Bool) : OpOut :=
  let out := dirRead img dev.directoryIndex buf
  ⟨out.ret, out.stored, { dev with directoryIndex := out.directoryIndex }⟩

def dirWrite (dev : Devices) : OpOut := ⟨-1, [], dev⟩

def fileRead (img : Image) (cs : Fin 3) (dev : Devices) (entry : FileArray) (buf : Bool)
    (nbytes : ℤ) : OpOut :=
  let out := readData img entry.inode entry.filePosition buf nbytes.toNat
  ⟨out.ret, out.bytes, if out.complained then
    { dev with display := puts cs dev.display (text "invalid data block!\n") } else dev⟩

def fileWrite (dev : Devices) : OpOut := ⟨-1, [], dev⟩

/-- The call through `pointer_.read_`. -/
def readOp (img : Image) (cs : Fin 3) (keyBuf : ℕ → UInt8) (dev : Devices) (entry : FileArray)
    (buf : Bool) (nbytes : ℤ) : OpOut :=
  match entry.pointer with
  | .stdinFops => terminalRead keyBuf dev buf nbytes
  | .stdoutFops => invalidReadOp dev
  | .rtcFops => rtcRead dev
  | .dirFops => dirReadOp img dev buf
  | .fileFops => fileRead img cs dev entry buf nbytes

/-- The call through `pointer_.write_`. -/
def writeOp (cs : Fin 3) (dev : Devices) (entry : FileArray) (buf : Option (ℕ → UInt8))
    (nbytes : ℤ) : OpOut :=
  match entry.pointer with
  | .stdinFops => invalidWriteOp dev
  | .stdoutFops => terminalWrite cs dev buf nbytes
  | .rtcFops => rtcWrite dev buf nbytes
  | .dirFops => dirWrite dev
  | .fileFops => fileWrite dev

/-- The call through `pointer_.open_`; only the clock does anything. -/
def openOp (pointer : Fops) (dev : Devices) : Devices :=
  match pointer with
  | .rtcFops => rtcOpen dev
  | _ => dev

/-! ### The calls -/

/-- What `init_pcb` does to the descriptors of a PCB: its last loop stops before
the last one. -/
def initFds (fds : Fds) : Fds :=
  let fds := update (update fds 0 ⟨.stdinFops, 0, 0, 1⟩) 1 ⟨.stdoutFops, 0, 0, 1⟩
  [2, 3, 4, 5, 6].foldl (fun fds i => update fds i { fds i with flags := 0 }) fds

/-- The range check on a descriptor and the slot it names. -/
def fdIndex (fd : ℤ) : Option (Fin 8) :=
  if h : 0 ≤ fd ∧ fd ≤ 7 then some ⟨fd.toNat, by omega⟩ else none

def failure (p : Proc) : CallOut := ⟨-1, [], p⟩

/-- `read`. The position moves by the result as an unsigned word, whatever it is. -/
def read (img : Image) (cs : Fin 3) (p : Proc) (fd : ℤ) (buf : Bool) (nbytes : ℤ)
    (keyBuf : ℕ → UInt8) : CallOut :=
  if nbytes < 0 then failure p
  else match fdIndex fd with
    | none => failure p
    | some i =>
      if buf = false then failure p
      else if (p.fds i).flags = 0 then failure p
      else
        let out := readOp img cs keyBuf p.dev (p.fds i) buf nbytes
        let numRead := (out.ret % 2 ^ 32).toNat
        let moved := { p.fds i with filePosition := u32 ((p.fds i).filePosition + numRead) }
        ⟨out.ret, out.stored, ⟨update p.fds i moved, out.dev⟩⟩

def write (cs : Fin 3) (p : Proc) (fd : ℤ) (buf : Option (ℕ → UInt8)) (nbytes : ℤ) : CallOut :=
  if nbytes < 0 then failure p
  else match fdIndex fd with
    | none => failure p
    | some i =>
      if buf.isNone then failure p
      else if (p.fds i).flags = 0 then failure p
      else
        let out := writeOp cs p.dev (p.fds i) buf nbytes
        ⟨out.ret, out.stored, ⟨p.fds, out.dev⟩⟩

/-- The first free slot from `BEGINING_FDA` to `END_OF_FDA`. -/
def firstFree (fds : Fds) : Option (Fin 8) :=
  [2, 3, 4, 5, 6, 7].find? fun i => (fds i).flags = 0

/-- The jump table for a file type; `none` is the default case of the switch. -/
def fopsOfType (fileType : ℕ) : Option Fops :=
  if fileType = rtcType then some .rtcFops
  else if fileType = dirType then some .dirFops
  else if fileType = fileTypeRegular then some .fileFops
  else none

/-- The slot that `open` fills in; only a regular file keeps its inode number. -/
def openedEntry (pointer : Fops) (d : Dentry) : FileArray :=
  ⟨pointer, if pointer = .fileFops then d.inodeNum else 0, 0, 1⟩

/-- `open`; a NULL name is `none`. -/
def sysOpen (img : Image) (p : Proc) (filename : Option CString) : CallOut :=
  match filename with
  | none => failure p
  | some name =>
    if name.mem 0 = 0 then failure p
    else match readDentryByName img name with
      | none => failure p
      | some d =>
        match firstFree p.fds with
        | none => failure p
        | some i =>
          match fopsOfType d.fileType with
          | none => failure p
          | some pointer =>
            ⟨i, [], ⟨update p.fds i (openedEntry pointer d), openOp pointer p.dev⟩⟩

/-- `close`; it leaves the jump table of the slot in place. -/
def close (p : Proc) (fd : ℤ) : CallOut :=
  if fd < 2 then failure p
  else match fdIndex fd with
    | none => failure p
    | some i =>
      if (p.fds i).flags = 0 then failure p
      else ⟨0, [], ⟨update p.fds i { p.fds i with inode := 0, filePosition := 0, flags := 0 }, p.dev⟩⟩

/-- A call with its arguments. -/
inductive Call
  | open (filename : Option CString)
  | close (fd : ℤ)
  | read (fd : ℤ) (buf : Bool) (nbytes : ℤ) (keyBuf : ℕ → UInt8)
  | write (fd : ℤ) (buf : Option (ℕ → UInt8)) (nbytes : ℤ)

def call (img : Image) (cs : Fin 3) (p : Proc) : Call → CallOut
  | .open filename => sysOpen img p filename
  | .close fd => close p fd
  | .read fd buf nbytes keyBuf => read img cs p fd buf nbytes keyBuf
  | .write fd buf nbytes => write cs p fd buf nbytes

/-- The process after a sequence of calls. -/
def calls (img : Image) (cs : Fin 3) : Proc → List Call → Proc
  | p, [] => p
  | p, c :: cl => calls img cs (call img cs p c).proc cl

end Ece391.Syscall
