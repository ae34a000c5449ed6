import Ece391.Kernel.Process
import Ece391.Support.Runs

/-! The scheduler of `pit.c` and the kernel as a state machine. The running process
is the one on the terminal whose turn it is; it calls the kernel or raises an
exception, and the timer passes the turn on. Each event is taken as one step. -/

namespace Ece391.Kernel

open Function (update)
open Lib FileSys Syscall Devices Support.Runs

abbrev keyboardControllerIrq : ℕ := 1

/-- The entry for the first page of the video table, for the terminal whose turn it is. -/
def videoEntry (k : State) : ℕ :=
  (if k.currScheduler = k.dev.display.currentTerminal then videoMem else vidPage k.currScheduler) |||
    vidMemFlag

/-- The next terminal gets the turn, and the keyboard is let through only for the
visible one. -/
def nextTurn (k : State) : State :=
  let k := { k with currScheduler := k.currScheduler + 1 }
  let irq := if k.currScheduler = k.dev.display.currentTerminal then enableIrq else disableIrq
  { k with pic := irq keyboardControllerIrq k.pic }

/-- The process `p` goes on in its own pages. -/
def continueProcess (k : State) (p : Fin 6) : State :=
  let k := { k with pageTableVideo := update k.pageTableVideo 0 (videoEntry k) }
  let k := k.mapUser (k.pcbs p).pid
  { k with tss := { k.tss with ss0 := kernelDs } }.setEsp0 (k.pcbs p).pid

/-- The screen before the very first shell. -/
def clearScreen (k : State) : State :=
  { k with dev := { k.dev with display := clearSet (clear k.dev.display) } }

/-- `scheduler`. On a terminal other than the first without a process it would save
the registers through NULL. -/
def scheduler (img : Image) (stack : ℕ → Stack) (k : State) : State :=
  match k.running with
  | none =>
    if k.currScheduler = 0 then startShell img stack (clearScreen k) else { k with lost := true }
  | some _ =>
    match (nextTurn k).running with
    | none => startShell img stack (nextTurn k)
    | some p => continueProcess (nextTurn k) p

/-- The descriptor of a `read` that is carried out on a directory. -/
def dirReadOn (fds : Fds) : Call → Option ℤ
  | .read fd buf nbytes _ => (fdIndex fd).bind fun i =>
      if 0 ≤ nbytes ∧ buf = true ∧ (fds i).flags ≠ 0 ∧ (fds i).pointer = .dirFops then some fd
      else none
  | _ => none

/-- The descriptor that an `open` has put a directory on. -/
def dirOpenedOn (c : Call) (out : CallOut) : Option ℤ :=
  match c with
  | .open _ => (fdIndex out.ret).bind fun i =>
      if (out.proc.fds i).pointer = .dirFops then some out.ret else none
  | _ => none

/-- The directory operations behind a call, for the trace. -/
def observe (act : ℕ) (fds : Fds) (c : Call) (out : CallOut) : List Obs :=
  ((dirOpenedOn c out).map (.dirOpened act)).toList ++
    ((dirReadOn fds c).map fun fd => .dirRead act fd out.ret out.stored).toList

/-- A call of the running process on its descriptors. -/
def fileCall (img : Image) (k : State) (p : Fin 6) (c : Call) : State :=
  let fds := (k.pcbs p).fileDescriptor
  let out := call img k.currScheduler ⟨fds, k.dev⟩ c
  let k := k.modifyPcb p fun pcb => { pcb with fileDescriptor := out.proc.fds }
  { k with
    dev := out.proc.dev
    trace := { k.trace with log := k.trace.log ++ observe (k.trace.born p) fds c out } }

/-- What can happen next. -/
inductive Event
  | execute (command : Option CString)
  | halt (status : UInt8)
  | exception (e : Exception)
  | tick
  | call (c : Call)

/-- `execute` called by the process `p`. -/
def executeBy (img : Image) (stack : ℕ → Stack) (k : State) (p : Fin 6) (command : Option CString) :
    State :=
  match execute img stack k command with
  | (k, .pageFault) => trap img stack k p .pf
  | (k, _) => k

/-- One step; the kernel takes none once it is lost, and without a running process
there is only the timer. -/
def step (img : Image) (stack : ℕ → Stack) (k : State) (e : Event) : Option State :=
  if k.lost then none
  else match e, k.running with
    | .tick, _ => some (scheduler img stack k)
    | _, none => none
    | .execute command, some p => some (executeBy img stack k p command)
    | .halt status, some p =>
      some (halt img stack (k.note (.ended (k.trace.born p) status)) p status)
    | .exception e, some p => some (trap img stack k p e)
    | .call c, some p => some (fileCall img k p c)

/-- The state after a list of events. -/
abbrev runs (img : Image) (stack : ℕ → Stack) : State → List Event → Option State :=
  run (step img stack)

/-- A directory of ".", "shell" and "exit", both executable. -/
def shellImage : Image := toyImage 3 [shellName.bytes, exitName.bytes]

/-- Runs on that image from a kernel booted in cleared memory. -/
abbrev shellRuns (es : List Event) : Option State := runs shellImage (fun _ => .zero) .cleared es

theorem shellRuns_eval (es : List Event) (p : State → Prop) [DecidablePred p]
    (h : (shellRuns es).any (fun k => decide (p k)) = true) : ∃ k, shellRuns es = some k ∧ p k :=
  run_eval _ _ es p h

end Ece391.Kernel
