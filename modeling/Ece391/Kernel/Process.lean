import Ece391.Kernel.Parse
import Ece391.Kernel.State

/-! Starting and ending a process: `execute` and `halt` of `system_call.c` and the
exception handlers of `exception_handler.c`. `execute` either returns, or enters
the new process, or takes a page fault in kernel mode: with no pid left, the PCB it
writes to would lie at 8 MB, where nothing is mapped. The page fault handler then
halts the process that made the call. -/

namespace Ece391.Kernel

open Function (update)
open Lib FileSys Syscall Devices

/-- `find_pid`; `none` is `FAILURE`. -/
def findPid (pid : ℤ → ℤ) : Option (Fin 6) := [0, 1, 2, 3, 4, 5].find? fun i => pid i = vacant

/-- The value `find_pid` returns. -/
def pidValue : Option (Fin 6) → ℤ
  | none => -1
  | some p => p

/-- The pid that a PCB pointer leads to, -1 for NULL. -/
def pidOf (pcbs : Fin 6 → Pcb) : Option (Fin 6) → ℤ
  | none => -1
  | some q => (pcbs q).pid

/-- `init_pcb` for a pid. The PCB is not cleared first. -/
def initPcb (k : State) (slot : Fin 6) (arg : List UInt8) : State :=
  let parent := k.running
  let k := k.modifyPcb slot fun pcb => { pcb with parentPcb := parent, pid := slot }
  let k := { k with pid := update k.pid slot occupied }
  let k := k.modifyPcb slot fun pcb =>
    { pcb with
      parentPid := pidOf k.pcbs parent
      argument := arg
      fileDescriptor := initFds pcb.fileDescriptor }
  { k with terminal := update k.terminal k.currScheduler (some slot) }

/-- The texts and names `execute` uses. -/
def exitName : CString := ⟨text "exit", CString.noNul_of_all rfl⟩
def shellName : CString := ⟨text "shell", CString.noNul_of_all rfl⟩
def limitMessage : List UInt8 := text "Maximum number of process reached. Exit please\n"

/-- The checks of `execute`: a command is refused with a message, or admitted
with the entry of its file and its argument. -/
inductive Admission
  | refused (message : List UInt8)
  | admitted (d : Dentry) (arg : List UInt8)

def Admission.accepts : Admission → Bool
  | .refused _ => false
  | .admitted _ _ => true

def admission (img : Image) (stack : Stack) (k : State) (command : Option CString) : Admission :=
  let out := parse command
  if out.ret = -1 then .refused []
  else if k.running ≠ none ∧ k.processCounter = maxPid ∧
      strncmp (bufMem out.filename) exitName.mem 5 ≠ 0 then .refused limitMessage
  else match readDentryByName img (CString.ofBuf out.filename) with
    | none => .refused []
    | some d =>
      if isExe img stack.magic (CString.ofBuf out.filename) = false then .refused []
      else .admitted d out.arg

/-- How a call of `execute` ended. -/
inductive ExecuteEnd
  | returned | entered | pageFault
  deriving DecidableEq

abbrev programOffset : ℕ := 0x48000
abbrev fourMb : ℕ := 0x400000

/-- The parent, if there is one, keeps the frame of call number `act`. -/
def saveFrame (k : State) (parent : Option (Fin 6)) (act : ℕ) : State :=
  { k with pcbs := fun p =>
      if parent = some p then { k.pcbs p with haltFrame := act } else k.pcbs p }

/-- `execute` once a pid has been found: the PCB, the program image, and the entry
into user mode. A file that does not fit behind `PROGRAM_IMG` runs out of the page. -/
def enter (img : Image) (stack : Stack) (k : State) (act : ℕ) (slot : Fin 6) (d : Dentry)
    (arg : List UInt8) : State :=
  let parent := k.running
  let k := initPcb k slot arg
  let k := { k with trace := { k.trace with born := update k.trace.born slot act } }
  let entryPoint := word32 (overlay (readData img d.inodeNum 24 true 4).bytes stack.entryPoint)
  let image := (readData img d.inodeNum 0 true (img.inode d.inodeNum).length).bytes
  if fourMb < programOffset + image.length then { k with lost := true }
  else
    let page := fun i => if programOffset ≤ i ∧ i < programOffset + image.length then
      image.getD (i - programOffset) 0 else k.userPage slot i
    let k := { k with userPage := update k.userPage slot page }
    let k := { k with tss := { k.tss with ss0 := kernelDs } }.setEsp0 slot
    let k := saveFrame k parent act
    k.note (.spawned act slot parent (k.pcbs slot).fileDescriptor entryPoint)

/-- A call of `execute` begins. -/
def beginCall (k : State) : State :=
  { k with trace := { k.trace with activations := k.trace.activations + 1 } }

/-- The failure returns of call number `act`. -/
def refuse (k : State) (act : ℕ) (message : List UInt8) : State :=
  (k.print message).note (.returned act (-1))

/-- The counter and the page directory, before the result of `find_pid` is used. -/
def claimPid (k : State) (slot : Option (Fin 6)) : State :=
  ({ k with processCounter := k.processCounter + 1 }.note (.findPid (pidValue slot))).mapUser
    (pidValue slot)

/-- `execute`; `stack n` is what the `n`-th call finds on its stack. -/
def execute (img : Image) (stack : ℕ → Stack) (k : State) (command : Option CString) :
    State × ExecuteEnd :=
  let act := k.trace.activations
  let k := beginCall k
  match admission img (stack act) k command with
  | .refused message => (refuse k act message, .returned)
  | .admitted d arg =>
    match findPid k.pid with
    | none => (claimPid k none, .pageFault)
    | some slot => (enter img (stack act) (claimPid k (some slot)) act slot d arg, .entered)

/-- A call of `execute("shell")` that must not come back. -/
def startShell (img : Image) (stack : ℕ → Stack) (k : State) : State :=
  match execute img stack k (some shellName) with
  | (k, .entered) => k
  | (k, _) => { k with lost := true }

/-- The loop of `halt` that closes what is open, and one round of it. -/
def closeIfOpen (dev : Devices) (fds : Fds) (i : Fin 8) : Fds :=
  if (fds i).flags = 1 then (close ⟨fds, dev⟩ i).proc.fds else fds

def closeAll (fds : Fds) (dev : Devices) : Fds :=
  ([0, 1, 2, 3, 4, 5, 6, 7] : List (Fin 8)).foldl (closeIfOpen dev) fds

/-- The rest of `execute` behind the label `return`, in call number `act`. -/
def resume (k : State) (act : ℕ) : State :=
  if k.globalHalt = 1 then { k with globalHalt := 0 }.note (.returned act 256)
  else k.note (.returned act 0)

/-- The end of `p` up to the jump into its parent `q`: paging, the kernel stack, the
descriptors, and the records of the terminal. -/
def handBack (k : State) (p q : Fin 6) (status : UInt8) : State :=
  let parentPid := (k.pcbs p).parentPid
  let k := (k.mapUser parentPid).setEsp0 parentPid
  let k := k.modifyPcb p fun pcb => { pcb with fileDescriptor := closeAll pcb.fileDescriptor k.dev }
  { k with
    terminal := update k.terminal k.currScheduler (some q)
    processCounter := k.processCounter - 1
    globalStatus := status }

/-- `halt` by the process `p`. A root starts its shell again; a process without a
parent that is not a root would be left through NULL. -/
def halt (img : Image) (stack : ℕ → Stack) (k : State) (p : Fin 6) (status : UInt8) : State :=
  let pcb := k.pcbs p
  let k := { k with pid := update k.pid pcb.pid vacant }
  if pcb.parentPid = -1 then
    startShell img stack
      { k with
        terminal := update k.terminal k.currScheduler none
        processCounter := k.processCounter - 1 }
  else match pcb.parentPcb with
    | none => { k with lost := true }
    | some q => resume (handBack k p q status) (k.pcbs q).haltFrame

/-! ### Exceptions -/

/-- The handlers of `exception_handler.c`. -/
inductive Exception
  | de | db | nmi | bp | of | br | ud | nm | df | cso | ts | np | ss | gp | pf | mf | ac | mc | xf

/-- The text of a handler; the macro prints it in quotes. -/
def Exception.message : Exception → String
  | .de => "Divide Error"
  | .db => "RESERVED"
  | .nmi => "NMI Interrupt"
  | .bp => "Breakpoint Exception"
  | .of => "Overflow Exception"
  | .br => "BOUND Range Exceeded"
  | .ud => "Invalid Opcode"
  | .nm => "Device Not Available"
  | .df => "Double Fault"
  | .cso => "Coprocessor Segment Overrun"
  | .ts => "Invalid TSS"
  | .np => "Segment Not Present"
  | .ss => "Stack-Segment Fault"
  | .gp => "General Protection"
  | .pf => "Page Fault"
  | .mf => "x87 FPU Floating-Point error"
  | .ac => "Alignment Check"
  | .mc => "Machine Check"
  | .xf => "SIMD Floating-Point Exception"

/-- A handler up to its call of `halt`. -/
def raise (k : State) (p : Fin 6) (e : Exception) : State :=
  { (k.note (.trapped (k.trace.born p))).print (text "\"" ++ text e.message ++ text "\"\n") with
    globalHalt := 1 }

/-- An exception raised by the process `p`. -/
def trap (img : Image) (stack : ℕ → Stack) (k : State) (p : Fin 6) (e : Exception) : State :=
  halt img stack (raise k p e) p 1

end Ece391.Kernel
