import Ece391.Devices.Rolls
import Ece391.Kernel.Console
import Ece391.Syscall.Shown

/-! What the terminals show in the long run. Everything the kernel prints, a process writes
and the keyboard shows is a mark on the roll of one terminal; after any run each screen,
visible or hidden, is the window on the roll with the marks of its own terminal. -/

namespace Ece391.Kernel

open Lib FileSys Syscall Devices Support.Runs

/-! ### What the kernel prints -/

/-- What a call of `read_data` prints. -/
def complaintOf (out : ReadOut) : List UInt8 :=
  if out.complained then text "invalid data block!\n" else []

/-- The checks of `execute`, of which `isExe` reads the first bytes of the file. -/
def checksText (img : Image) (k : State) (command : Option CString) : List UInt8 :=
  let out := parse command
  if out.ret = -1 then []
  else if k.running ≠ none ∧ k.processCounter = maxPid ∧
      strncmp (bufMem out.filename) exitName.mem 5 ≠ 0 then limitMessage
  else match readDentryByName img (CString.ofBuf out.filename) with
    | none => []
    | some d => complaintOf (readData img d.inodeNum 0 true 4)

/-- The reads of the entry point and of the program, once there is a pid. -/
def loadText (img : Image) (k : State) (d : Dentry) : List UInt8 :=
  match findPid k.pid with
  | none => []
  | some _ => complaintOf (readData img d.inodeNum 24 true 4) ++
      complaintOf (readData img d.inodeNum 0 true (img.inode d.inodeNum).length)

/-- What a call of `execute` prints. -/
def executeText (img : Image) (stack : ℕ → Stack) (k : State) (command : Option CString) :
    List UInt8 :=
  checksText img k command ++
    match admission img (stack k.trace.activations) (beginCall k) command with
    | .refused _ => []
    | .admitted d _ => loadText img k d

/-- No file of the image makes `read_data` complain when it is executed. The model of
`execute` is without these messages. -/
def LoadsQuietly (img : Image) : Prop :=
  ∀ inode, (readData img inode 0 true 4).complained = false ∧
    (readData img inode 24 true 4).complained = false ∧
    (readData img inode 0 true (img.inode inode).length).complained = false

/-- A root that ends starts its shell again. -/
def haltText (img : Image) (stack : ℕ → Stack) (k : State) (p : Fin 6) : List UInt8 :=
  if (k.pcbs p).parentPid = -1 then executeText img stack (freed k p) (some shellName) else []

def trapText (img : Image) (stack : ℕ → Stack) (k : State) (p : Fin 6) (e : Exception) :
    List UInt8 :=
  text "\"" ++ text e.message ++ text "\"\n" ++ haltText img stack (raise k p e) p

def executeByText (img : Image) (stack : ℕ → Stack) (k : State) (p : Fin 6)
    (command : Option CString) : List UInt8 :=
  executeText img stack k command ++
    match execute img stack k command with
    | (k', .pageFault) => trapText img stack k' p .pf
    | _ => []

/-- What an event of the process `p` prints. -/
def eventText (img : Image) (stack : ℕ → Stack) (k : State) (p : Fin 6) : Event → List UInt8
  | .execute command => executeByText img stack k p command
  | .halt status => haltText img stack (k.note (.ended (k.trace.born p) status)) p
  | .exception e => trapText img stack k p e
  | .call c => shown img ⟨(k.pcbs p).fileDescriptor, k.dev⟩ c
  | .tick => []

/-- The scheduler clears the visible screen before the very first shell. -/
def tickMarks (img : Image) (stack : ℕ → Stack) (k : State) : Marks :=
  match k.running with
  | none =>
    if k.currScheduler = 0 then (k.dev.display.currentTerminal, .wipe) ::
      printed k.currScheduler (executeText img stack (clearScreen k) (some shellName))
    else []
  | some _ =>
    match (nextTurn k).running with
    | none => printed (k.currScheduler + 1) (executeText img stack (nextTurn k) (some shellName))
    | some _ => []

def eventMarks (img : Image) (stack : ℕ → Stack) (k : State) (e : Event) : Marks :=
  match e, k.running with
  | .tick, _ => tickMarks img stack k
  | _, none => []
  | e, some p => printed k.currScheduler (eventText img stack k p e)

/-- The screens differ by a text of the running terminal. -/
structure Writes (k k' : State) (l : List UInt8) : Prop where
  currScheduler : k'.currScheduler = k.currScheduler
  display : k'.dev.display = puts k.currScheduler k.dev.display l

theorem Writes.trans {k k' k'' : State} {l l' : List UInt8} (h : Writes k k' l)
    (h' : Writes k' k'' l') : Writes k k'' (l ++ l') where
  currScheduler := h'.currScheduler.trans h.currScheduler
  display := by rw [h'.display, h.currScheduler, h.display, puts_append]

/-- Nothing was printed. -/
theorem Writes.nothing {k k' : State} (hcs : k'.currScheduler = k.currScheduler)
    (hdisplay : k'.dev.display = k.dev.display) : Writes k k' [] := ⟨hcs, hdisplay⟩

/-- Where no read complains, a call of `execute` prints the message of a refusal. -/
theorem LoadsQuietly.executeText {img : Image} (h : LoadsQuietly img) (stack : ℕ → Stack) (k : State)
    (command : Option CString) :
    executeText img stack k command =
      match admission img (stack k.trace.activations) (beginCall k) command with
      | .refused message => message
      | .admitted _ _ => [] := by
  have hload : ∀ d, loadText img k d = [] := by
    intro d
    simp only [loadText, complaintOf, (h d.inodeNum).2.1, (h d.inodeNum).2.2, Bool.false_eq_true,
      if_false, List.append_nil]
    cases findPid k.pid <;> rfl
  have hchecks : ∀ d : Dentry, complaintOf (readData img d.inodeNum 0 true 4) = [] := fun d => by
    rw [complaintOf, (h d.inodeNum).1]
    rfl
  have hrun : (beginCall k).running = k.running := rfl
  have hcount : (beginCall k).processCounter = k.processCounter := rfl
  simp only [Kernel.executeText, checksText, admission, hload, hchecks, hrun, hcount]
  cases readDentryByName img (CString.ofBuf (parse command).filename) with
  | none => split_ifs <;> rfl
  | some d => split_ifs <;> rfl

section Operations
variable {img : Image} (hquiet : LoadsQuietly img) (stack : ℕ → Stack) (k : State)
include hquiet

theorem execute_writes (command : Option CString) :
    Writes k (execute img stack k command).1 (executeText img stack k command) := by
  rw [hquiet.executeText, execute]
  cases admission img (stack k.trace.activations) (beginCall k) command with
  | refused message => exact ⟨rfl, rfl⟩
  | admitted d arg =>
    cases findPid (beginCall k).pid with
    | none => exact .nothing rfl rfl
    | some slot =>
      simp only [enter]
      split_ifs <;> exact .nothing rfl rfl

theorem startShell_writes :
    Writes k (startShell img stack k) (executeText img stack k (some shellName)) := by
  have hexec := execute_writes hquiet stack k (some shellName)
  simp only [startShell]
  rcases hk' : execute img stack k (some shellName) with ⟨k', r⟩
  rw [hk'] at hexec
  cases r with
  | entered => exact hexec
  | returned => exact ⟨hexec.currScheduler, hexec.display⟩
  | pageFault => exact ⟨hexec.currScheduler, hexec.display⟩

theorem halt_writes (p : Fin 6) (status : UInt8) :
    Writes k (halt img stack k p status) (haltText img stack k p) := by
  simp only [halt, haltText]
  split_ifs
  · have hshell := startShell_writes hquiet stack (freed k p)
    exact ⟨hshell.currScheduler, hshell.display⟩
  · cases (k.pcbs p).parentPcb with
    | none => exact .nothing rfl rfl
    | some q =>
      simp only [resume_eq]
      exact .nothing rfl rfl

theorem trap_writes (p : Fin 6) (e : Exception) :
    Writes k (trap img stack k p e) (trapText img stack k p e) := by
  have hraise : Writes k (raise k p e) (text "\"" ++ text e.message ++ text "\"\n") := ⟨rfl, rfl⟩
  exact hraise.trans (halt_writes hquiet stack (raise k p e) p 1)

theorem executeBy_writes (p : Fin 6) (command : Option CString) :
    Writes k (executeBy img stack k p command) (executeByText img stack k p command) := by
  have hexec := execute_writes hquiet stack k command
  simp only [executeBy, executeByText]
  rcases hk' : execute img stack k command with ⟨k', r⟩
  rw [hk'] at hexec
  cases r with
  | returned => simpa only [List.append_nil] using hexec
  | entered => simpa only [List.append_nil] using hexec
  | pageFault => exact hexec.trans (trap_writes hquiet stack k' p .pf)

end Operations

/-! ### Marks on the rolls -/

section Events
variable {img : Image} {stack : ℕ → Stack} {k k' : State} {r : Fin 3 → Roll}

theorem Rolled.writes {l : List UInt8} (h : Rolled k.dev.display r) (hw : Writes k k' l) :
    Rolled k'.dev.display (marked r (printed k.currScheduler l)) := by
  rw [hw.display]
  exact h.puts k.currScheduler l

theorem Rolled.event (hquiet : LoadsQuietly img) {e : Event} (h : Rolled k.dev.display r)
    (hs : step img stack k e = some k') :
    Rolled k'.dev.display (marked r (eventMarks img stack k e)) := by
  obtain ⟨-, hby⟩ := step_by hs
  cases hby with
  | firstShell hrun hcs =>
    have hclear : Rolled (clearScreen k).dev.display
        (marked r [(k.dev.display.currentTerminal, .wipe)]) := h.clear
    have hmarks : eventMarks img stack k .tick = [(k.dev.display.currentTerminal, .wipe)] ++
        printed k.currScheduler (executeText img stack (clearScreen k) (some shellName)) := by
      simp only [eventMarks, tickMarks, hrun, if_pos hcs, List.cons_append, List.nil_append]
    have hshell := Rolled.writes hclear (startShell_writes hquiet stack (clearScreen k))
    rw [(clearScreen_quiet k).currScheduler] at hshell
    rw [hmarks, marked_append]
    exact hshell
  | noProcess hrun hcs =>
    simp only [eventMarks, tickMarks, hrun, if_neg hcs]
    exact h
  | newShell p hrun hnext =>
    simp only [eventMarks, tickMarks, hrun, hnext]
    exact Rolled.writes (k := nextTurn k) h (startShell_writes hquiet stack (nextTurn k))
  | turn p q hrun hnext =>
    simp only [eventMarks, tickMarks, hrun, hnext]
    exact h
  | execute command p hrun =>
    simp only [eventMarks, hrun, eventText]
    exact Rolled.writes h (executeBy_writes hquiet stack k p command)
  | halt status p hrun =>
    simp only [eventMarks, hrun, eventText]
    exact Rolled.writes (k := k.note (.ended (k.trace.born p) status)) h
      (halt_writes hquiet stack _ p status)
  | exception e p hrun =>
    simp only [eventMarks, hrun, eventText]
    exact Rolled.writes h (trap_writes hquiet stack k p e)
  | call c p hrun =>
    simp only [eventMarks, hrun, eventText]
    exact Rolled.writes h ⟨rfl, call_shows img k.currScheduler ⟨(k.pcbs p).fileDescriptor, k.dev⟩ c⟩

end Events

/-- What the rest of the kernel prints about a key. -/
def answerMarks (img : Image) (stack : ℕ → Stack) (k : State) : Option Request → Marks
  | some (.halt status) =>
    match k.running with
    | none => []
    | some p => printed k.currScheduler (haltText img stack (k.note (.ended (k.trace.born p) status)) p)
  | _ => []

/-- The marks of an event of the machine. -/
def machineMarks (img : Image) (stack : ℕ → Stack) (m : Machine) : MachineEvent → Marks
  | .kernel e => eventMarks img stack m.kernel e
  | .key code =>
    let out := keyboardHandler m.kernel.currScheduler m.console code
    keyMarks m.kernel.currScheduler (withModifiers m.console code) (keyOf m.keys.mods code) ++
      answerMarks img stack (m.kernel.withDisplay out.1.display) out.2

/-- The marks of a run, in order. -/
def marksAlong (img : Image) (stack : ℕ → Stack) : Machine → List MachineEvent → Marks
  | _, [] => []
  | m, e :: es => machineMarks img stack m e ++
    match machineStep img stack m e with
    | some m' => marksAlong img stack m' es
    | none => []

/-- A Backspace that finds the cursor in the first column. -/
def ErasesAtMargin (m : Machine) : MachineEvent → Prop
  | .kernel _ => False
  | .key code => DeletesAtMargin m.console (.key m.kernel.currScheduler code)

instance (m : Machine) : (e : MachineEvent) → Decidable (ErasesAtMargin m e)
  | .kernel _ => isFalse id
  | .key code =>
    inferInstanceAs (Decidable (DeletesAtMargin m.console (.key m.kernel.currScheduler code)))

section Machines
variable {img : Image} {stack : ℕ → Stack} {m m' : Machine} {r : Fin 3 → Roll}
  (hquiet : LoadsQuietly img)
include hquiet

theorem Rolled.answer {k : State} (h : Rolled k.dev.display r) (a : Option Request) :
    Rolled (answer img stack k a).dev.display (marked r (answerMarks img stack k a)) := by
  cases a with
  | none => exact h
  | some a =>
    cases a with
    | remap => exact h
    | halt status =>
      simp only [Kernel.answer, answerMarks]
      cases k.running with
      | none => exact h
      | some p =>
        exact Rolled.writes (k := k.note (.ended (k.trace.born p) status)) h
          (halt_writes hquiet stack _ p status)

theorem Rolled.key (h : Rolled m.kernel.dev.display r) {code : UInt8}
    (hg : ¬ ErasesAtMargin m (.key code)) :
    Rolled (keyInterrupt img stack m code).kernel.dev.display
      (marked r (machineMarks img stack m (.key code))) := by
  have hpress := Rolled.press (s := withModifiers m.console code) h m.kernel.currScheduler
    (keyOf m.keys.mods code) fun hback hcount =>
      Nat.pos_of_ne_zero fun hx => hg ⟨keyOf_eq_backspace.mp hback, hcount, hx⟩
  simp only [machineMarks, marked_append]
  exact Rolled.answer hquiet hpress _

theorem Rolled.step (h : Rolled m.kernel.dev.display r) {e : MachineEvent}
    (hg : ¬ ErasesAtMargin m e) (hs : machineStep img stack m e = some m') :
    Rolled m'.kernel.dev.display (marked r (machineMarks img stack m e)) := by
  cases e with
  | key code =>
    simp only [machineStep] at hs
    split_ifs at hs
    obtain rfl := Option.some.inj hs
    exact Rolled.key hquiet h hg
  | kernel e =>
    obtain ⟨k, hk, hkernel⟩ : ∃ k, Kernel.step img stack m.kernel e = some k ∧ m'.kernel = k := by
      cases e <;>
      · simp only [machineStep, Option.map_eq_some_iff] at hs
        obtain ⟨k, hk, rfl⟩ := hs
        exact ⟨k, hk, rfl⟩
    rw [hkernel]
    exact Rolled.event hquiet h hk

theorem Rolled.run {es : List MachineEvent} (h : Rolled m.kernel.dev.display r)
    (hg : Along (machineStep img stack) (fun m e => ¬ ErasesAtMargin m e) m es)
    (hr : run (machineStep img stack) m es = some m') :
    Rolled m'.kernel.dev.display (marked r (marksAlong img stack m es)) := by
  induction es generalizing m r with
  | nil =>
    obtain rfl : m = m' := by simpa [Support.Runs.run] using hr
    exact h
  | cons e es ih =>
    obtain ⟨m₁, hs, hr⟩ := run_cons_eq_some.mp hr
    simp only [marksAlong, hs, marked_append]
    exact ih (Rolled.step hquiet h hg.1 hs) (hg.2 m₁ hs) hr

end Machines

/-- On an image that loads quietly, in every run of the kernel and the keyboard in which no
Backspace finds the cursor in the first column, from cursors on their screens: the screen of
each terminal, in video memory while it is shown and on its backing page while it is not, is
the window on the roll that the marks of this terminal alone make of the roll it began with,
and its cursor is at the next cell. -/
theorem screens_show_rolls (img : Image) (hquiet : LoadsQuietly img) (stack : ℕ → Stack)
    (m m' : Machine) (es : List MachineEvent) (hinside : m.kernel.dev.display.Inside)
    (hg : Along (machineStep img stack) (fun m e => ¬ ErasesAtMargin m e) m es)
    (hr : run (machineStep img stack) m es = some m') (t : Fin 3) :
    Displays (m'.kernel.dev.display.base t) m'.kernel.dev.display.vram
      (m'.kernel.dev.display.screenX t) (m'.kernel.dev.display.screenY t)
      ((marksOn t (marksAlong img stack m es)).foldl Roll.mark (.found m.kernel.dev.display t)) := by
  have hrolled : Rolled m.kernel.dev.display (.found m.kernel.dev.display) :=
    fun t => hinside.found t
  have h := Rolled.run hquiet hrolled hg hr t
  rwa [marked_apply] at h

theorem shellImage_quiet : LoadsQuietly shellImage := by
  intro inode
  by_cases hino : shellImage.bootBlock.fileStat.inodeNum ≤ inode
  · simp [readData, hino]
  · obtain rfl | rfl : inode = 0 ∨ inode = 1 := by
      have htwo : shellImage.bootBlock.fileStat.inodeNum = 2 := rfl
      omega
    · decide
    · decide

/-- "a", Backspace and "b" on terminal 0, then Alt+F2: the screen that is kept for terminal 0
begins with the "b". -/
theorem screens_show_rolls_hidden :
    ∃ m', machineRuns [.kernel .tick, .key 0x1E, .key 0x0E, .key 0x30, .key 0x38, .key 0x3C] =
        some m' ∧
      m'.visible = 1 ∧ cellAt (vidPage 0) m'.kernel.dev.display.vram 0 = (0x62, attrib) := by
  set es : List MachineEvent :=
    [.kernel .tick, .key 0x1E, .key 0x0E, .key 0x30, .key 0x38, .key 0x3C]
  obtain ⟨m', hr, hvisible⟩ := run_eval (machineStep shellImage fun _ => .zero) .cleared es
    (fun m => m.visible = 1) (by decide +kernel)
  have hmarks : marksOn 0 (marksAlong shellImage (fun _ => .zero) .cleared es) =
      [.wipe, .put 0x61, .erase, .put 0x62] := by decide +kernel
  have h := screens_show_rolls shellImage shellImage_quiet (fun _ => .zero) .cleared m' es
    (fun _ => show 80 * 0 + 0 < 2000 by decide) (by decide +kernel) hr 0
  have hbase : m'.kernel.dev.display.base 0 = vidPage 0 :=
    if_neg (show (0 : Fin 3) ≠ m'.visible by rw [hvisible]; decide)
  rw [hmarks, hbase] at h
  exact ⟨m', hr, hvisible, h.cells 0 (by decide)⟩

end Ece391.Kernel
