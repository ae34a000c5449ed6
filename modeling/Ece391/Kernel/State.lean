import Ece391.Devices.Pic
import Ece391.Syscall.Descriptors

/-! The kernel's own data: the process table of `system_call.c`, the PCBs at the
top of the kernel page, the terminals and the scheduler's turn, and the entries
of the page tables and of the TSS that follow the running process. A saved pair
of `ebp` and `esp` points into the stack frame of one call of `execute` and is
kept as the number of that call. The registers saved by the scheduler are left
out: a process that gets its turn back continues where it was interrupted.

The trace is what an observer of a run writes down. Nothing in the kernel reads it. -/

namespace Ece391.Kernel

open Function (update)
open Lib FileSys Syscall Devices

/-- There are pids, so a number names one. -/
instance pids_ne_zero : NeZero 6 := ⟨by decide⟩

/-- `pcb_t`. A PCB is named by its place: number `p` lies 8 KB times `p + 1` below
8 MB. `argument` holds the bytes the pointer leads to. -/
structure Pcb where
  pid : ℤ
  parentPid : ℤ
  haltFrame : ℕ
  argument : List UInt8
  fileDescriptor : Fds
  parentPcb : Option (Fin 6)

/-- The two fields of the TSS that the kernel sets. -/
structure Tss where
  ss0 : ℕ
  esp0 : ℕ

/-- What an observer notes down. A call of `execute` is named by its number, and
a process by the call that created it. -/
inductive Obs
  /-- The result of `find_pid`. -/
  | findPid (result : ℤ)
  /-- A store to `page_directory[32]`. -/
  | mapped (entry : ℕ)
  /-- A process enters its program, with this table of descriptors. -/
  | spawned (act : ℕ) (slot : Fin 6) (parent : Option (Fin 6)) (fds : Fds) (entryPoint : UInt32)
  /-- A process called `halt`. -/
  | ended (act : ℕ) (status : UInt8)
  /-- A process raised an exception. -/
  | trapped (act : ℕ)
  /-- A call of `execute` returned. -/
  | returned (act : ℕ) (value : ℤ)
  /-- A process opened a directory. -/
  | dirOpened (act : ℕ) (fd : ℤ)
  /-- A process read from a directory. -/
  | dirRead (act : ℕ) (fd ret : ℤ) (stored : List UInt8)
  deriving DecidableEq

/-- The calls of `execute` so far, the call that created each process, and the
observations in order. -/
structure Trace where
  activations : ℕ
  born : Fin 6 → ℕ
  log : List Obs

/-- `pid` is memory: its six elements and the words around them. The page tables
are by index too, and `userPage p` is the 4 MB frame at 8 MB + `p` * 4 MB. -/
structure State where
  pid : ℤ → ℤ
  processCounter : ℤ
  globalHalt : ℕ
  globalStatus : UInt8
  terminal : Fin 3 → Option (Fin 6)
  currScheduler : Fin 3
  pcbs : Fin 6 → Pcb
  pageDirectory : ℕ → ℕ
  pageTableVideo : ℕ → ℕ
  tss : Tss
  userPage : Fin 6 → ℕ → UInt8
  pic : Pic
  dev : Devices
  trace : Trace
  /-- A store or load through NULL or past the user page has been made in kernel
  mode, and what follows depends on memory that the source does not determine. -/
  lost : Bool

abbrev vacant : ℤ := -1
abbrev occupied : ℤ := 1
abbrev maxPid : ℤ := 5
abbrev kernelDs : ℕ := 0x18
abbrev vidMemFlag : ℕ := 0x07

/-- The uninitialised stack buffers that one call of `execute` finds. -/
structure Stack where
  magic : ℕ → UInt8
  entryPoint : ℕ → UInt8

namespace State

/-- `terminal[curr_scheduler].pcb`. -/
def running (k : State) : Option (Fin 6) := k.terminal k.currScheduler

/-- The trace with one more observation. -/
def note (k : State) (o : Obs) : State := { k with trace := { k.trace with log := k.trace.log ++ [o] } }

/-- `printf` of a plain text by the running process. -/
def print (k : State) (s : List UInt8) : State :=
  { k with dev := { k.dev with display := puts k.currScheduler k.dev.display s } }

/-- The page directory entry for the user page of a pid. -/
def userEntry (p : ℤ) : ℕ := ((0x800000 + p * 0x400000) % 2 ^ 32).toNat ||| 0x87

/-- `page_directory[VIRTUAL_MEMORY_START]` for a pid, with the flush. -/
def mapUser (k : State) (p : ℤ) : State :=
  { k with pageDirectory := update k.pageDirectory 32 (userEntry p) }.note (.mapped (userEntry p))

/-- The kernel stack pointer for a pid. -/
def setEsp0 (k : State) (p : ℤ) : State :=
  { k with tss := { k.tss with esp0 := ((0x800000 - p * 0x2000 - 4) % 2 ^ 32).toNat } }

/-- The PCB of a process changed in place. -/
def modifyPcb (k : State) (p : Fin 6) (f : Pcb → Pcb) : State :=
  { k with pcbs := update k.pcbs p (f (k.pcbs p)) }

/-- The process table and the terminals as `kernel.c` leaves them. All other
memory, the PCBs included, may hold anything. -/
structure Boot (k : State) : Prop where
  pid : ∀ p : Fin 6, k.pid p = vacant
  processCounter : k.processCounter = -1
  globalHalt : k.globalHalt = 0
  terminal : ∀ t, k.terminal t = none
  currScheduler : k.currScheduler = 0
  directoryIndex : k.dev.directoryIndex = -1
  activations : k.trace.activations = 0
  log : k.trace.log = []
  lost : k.lost = false

/-- A kernel that has just booted in cleared memory. -/
def cleared : State where
  pid := fun _ => vacant
  processCounter := -1
  globalHalt := 0
  globalStatus := 0
  terminal := fun _ => none
  currScheduler := 0
  pcbs := fun _ => ⟨0, 0, 0, [], fun _ => ⟨.stdinFops, 0, 0, 0⟩, none⟩
  pageDirectory := fun _ => 0
  pageTableVideo := fun _ => 0
  tss := ⟨kernelDs, 0x800000⟩
  userPage := fun _ _ => 0
  pic := ⟨0xFF, 0xFF, 0xFF, 0xFF⟩
  dev := blankDevices
  trace := ⟨0, fun _ => 0, []⟩
  lost := false

theorem cleared_boot : Boot cleared where
  pid _ := rfl
  processCounter := rfl
  globalHalt := rfl
  terminal _ := rfl
  currScheduler := rfl
  directoryIndex := rfl
  activations := rfl
  log := rfl
  lost := rfl

end State

/-- A stack that held zeros. -/
def Stack.zero : Stack := ⟨fun _ => 0, fun _ => 0⟩

end Ece391.Kernel
