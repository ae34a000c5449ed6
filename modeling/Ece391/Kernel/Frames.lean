import Ece391.Kernel.Moves
import Ece391.Lib.Pages

/-! What the processes leave alone. Apart from the timer, no event of the kernel
changes whose turn it is, which terminal is shown, the interrupt masks, the video page
table, or any entry of the page directory but the one of the user page; and the
screens change only by what the running terminal prints. -/

namespace Ece391.Kernel

open Function (update)
open Lib FileSys Syscall

/-- Of these records only the entry of the user page and the screen of the running
terminal changed. -/
structure Kept (k k' : State) : Prop where
  pageTableVideo : k'.pageTableVideo = k.pageTableVideo
  pageDirectory : ∀ i, i ≠ 32 → k'.pageDirectory i = k.pageDirectory i
  currScheduler : k'.currScheduler = k.currScheduler
  pic : k'.pic = k.pic
  display : ∃ l, k'.dev.display = puts k.currScheduler k.dev.display l

theorem puts_append (cs : Fin 3) (d : Display) (l l' : List UInt8) :
    puts cs d (l ++ l') = puts cs (puts cs d l) l' := List.foldl_append

theorem puts_currentTerminal (cs : Fin 3) (d : Display) (l : List UInt8) :
    (puts cs d l).currentTerminal = d.currentTerminal := by
  induction l generalizing d with
  | nil => rfl
  | cons c l ih => exact (ih (putc cs d c)).trans (Display.putc_currentTerminal d cs c)

namespace Kept
variable {k k' k'' : State}

theorem trans (h : Kept k k') (h' : Kept k' k'') : Kept k k'' where
  pageTableVideo := h'.pageTableVideo.trans h.pageTableVideo
  pageDirectory i hi := (h'.pageDirectory i hi).trans (h.pageDirectory i hi)
  currScheduler := h'.currScheduler.trans h.currScheduler
  pic := h'.pic.trans h.pic
  display := by
    obtain ⟨l, hl⟩ := h.display
    obtain ⟨l', hl'⟩ := h'.display
    rw [h.currScheduler, hl, ← puts_append] at hl'
    exact ⟨l ++ l', hl'⟩

theorem currentTerminal (h : Kept k k') :
    k'.dev.display.currentTerminal = k.dev.display.currentTerminal := by
  obtain ⟨l, hl⟩ := h.display
  rw [hl, puts_currentTerminal]

theorem inside (h : Kept k k') (hk : k.dev.display.Inside) : k'.dev.display.Inside := by
  obtain ⟨l, hl⟩ := h.display
  rw [hl]
  exact hk.puts k.currScheduler l

end Kept

section Operations
variable (img : Image) (stack : ℕ → Stack) (k : State)

theorem refuse_kept (act : ℕ) (message : List UInt8) :
    Kept k (refuse (beginCall k) act message) :=
  ⟨rfl, fun _ _ => rfl, rfl, rfl, message, rfl⟩

theorem claimPid_kept (slot : Option (Fin 6)) : Kept k (claimPid (beginCall k) slot) :=
  ⟨rfl, fun _ hi => Function.update_of_ne hi _ _, rfl, rfl, [], rfl⟩

theorem enter_kept (stack : Stack) (act : ℕ) (slot : Fin 6) (d : Dentry) (arg : List UInt8) :
    Kept k (enter img stack k act slot d arg) := by
  simp only [enter]
  split_ifs <;> exact ⟨rfl, fun _ _ => rfl, rfl, rfl, [], rfl⟩

theorem execute_kept (command : Option CString) : Kept k (execute img stack k command).1 := by
  simp only [execute]
  cases admission img (stack k.trace.activations) (beginCall k) command with
  | refused message => exact refuse_kept k _ message
  | admitted d arg =>
    cases findPid (beginCall k).pid with
    | none => exact claimPid_kept k none
    | some slot => exact (claimPid_kept k (some slot)).trans (enter_kept img _ _ _ _ _ _)

theorem startShell_kept : Kept k (startShell img stack k) := by
  have hexec := execute_kept img stack k (some shellName)
  simp only [startShell]
  rcases hk' : execute img stack k (some shellName) with ⟨k', r⟩
  rw [hk'] at hexec
  cases r with
  | entered => exact hexec
  | returned => exact hexec.trans ⟨rfl, fun _ _ => rfl, rfl, rfl, [], rfl⟩
  | pageFault => exact hexec.trans ⟨rfl, fun _ _ => rfl, rfl, rfl, [], rfl⟩

theorem halt_kept (p : Fin 6) (status : UInt8) : Kept k (halt img stack k p status) := by
  simp only [halt]
  split_ifs
  · refine Kept.trans ?_ (startShell_kept img stack _)
    exact ⟨rfl, fun _ _ => rfl, rfl, rfl, [], rfl⟩
  · cases (k.pcbs p).parentPcb with
    | none => exact ⟨rfl, fun _ _ => rfl, rfl, rfl, [], rfl⟩
    | some q =>
      simp only [resume_eq]
      exact ⟨rfl, fun _ hi => Function.update_of_ne hi _ _, rfl, rfl, [], rfl⟩

theorem trap_kept (p : Fin 6) (e : Exception) : Kept k (trap img stack k p e) := by
  refine Kept.trans ?_ (halt_kept img stack (raise k p e) p 1)
  exact ⟨rfl, fun _ _ => rfl, rfl, rfl, _, rfl⟩

theorem executeBy_kept (p : Fin 6) (command : Option CString) :
    Kept k (executeBy img stack k p command) := by
  have hexec := execute_kept img stack k command
  simp only [executeBy]
  rcases hk' : execute img stack k command with ⟨k', r⟩
  rw [hk'] at hexec
  cases r with
  | returned => exact hexec
  | entered => exact hexec
  | pageFault => exact hexec.trans (trap_kept img stack k' p .pf)

end Operations

/-! ### Calls on descriptors -/

section Calls
variable (img : Image) (cs : Fin 3) (dev : Devices)

/-- The screens after an operation are those before it with more text. -/
def Prints (cs : Fin 3) (dev dev' : Devices) : Prop :=
  ∃ l, dev'.display = puts cs dev.display l

theorem readOp_prints (keyBuf : ℕ → UInt8) (entry : FileArray) (buf : Bool) (nbytes : ℤ) :
    Prints cs dev (readOp img cs keyBuf dev entry buf nbytes).dev := by
  simp only [readOp]
  cases entry.pointer with
  | stdinFops =>
    simp only [terminalRead]
    split_ifs <;> exact ⟨[], rfl⟩
  | stdoutFops => exact ⟨[], rfl⟩
  | rtcFops => exact ⟨[], rfl⟩
  | dirFops => exact ⟨[], rfl⟩
  | fileFops =>
    simp only [fileRead]
    split_ifs
    · exact ⟨_, rfl⟩
    · exact ⟨[], rfl⟩

theorem rtcWrite_prints (buf : Option (ℕ → UInt8)) (nbytes : ℤ) :
    Prints cs dev (rtcWrite dev buf nbytes).dev := by
  cases buf with
  | none => exact ⟨[], rfl⟩
  | some bytes =>
    simp only [rtcWrite]
    split_ifs
    · exact ⟨[], rfl⟩
    · exact ⟨[], rfl⟩
    · cases rtcRate (word32 bytes) <;> exact ⟨[], rfl⟩

theorem writeOp_prints (entry : FileArray) (buf : Option (ℕ → UInt8)) (nbytes : ℤ) :
    Prints cs dev (writeOp cs dev entry buf nbytes).dev := by
  simp only [writeOp]
  cases entry.pointer with
  | stdinFops => exact ⟨[], rfl⟩
  | stdoutFops =>
    cases buf with
    | none => exact ⟨[], rfl⟩
    | some bytes =>
      simp only [terminalWrite]
      split_ifs
      · exact ⟨[], rfl⟩
      · exact ⟨_, rfl⟩
  | rtcFops => exact rtcWrite_prints cs dev buf nbytes
  | dirFops => exact ⟨[], rfl⟩
  | fileFops => exact ⟨[], rfl⟩

theorem openOp_prints (pointer : Fops) : Prints cs dev (openOp pointer dev) := by
  cases pointer <;> exact ⟨[], rfl⟩

end Calls

theorem sysOpen_prints (img : Image) (cs : Fin 3) (p : Proc) (filename : Option CString) :
    Prints cs p.dev (sysOpen img p filename).proc.dev := by
  unfold sysOpen
  cases filename with
  | none => exact ⟨[], rfl⟩
  | some name =>
    dsimp only
    split_ifs
    · exact ⟨[], rfl⟩
    · cases readDentryByName img name with
      | none => exact ⟨[], rfl⟩
      | some d =>
        cases firstFree p.fds with
        | none => exact ⟨[], rfl⟩
        | some i =>
          cases hpointer : fopsOfType d.fileType with
          | none => exact ⟨[], by simp only [hpointer]; rfl⟩
          | some pointer => simpa only [hpointer] using openOp_prints cs p.dev pointer

/-- A call on a descriptor prints, or leaves the screens alone. -/
theorem call_prints (img : Image) (cs : Fin 3) (p : Proc) (c : Call) :
    Prints cs p.dev (call img cs p c).proc.dev := by
  cases c with
  | «open» filename => exact sysOpen_prints img cs p filename
  | close fd =>
    simp only [call, close]
    cases fdIndex fd with
    | none => split_ifs <;> exact ⟨[], rfl⟩
    | some i =>
      dsimp only
      split_ifs <;> exact ⟨[], rfl⟩
  | read fd buf nbytes keyBuf =>
    simp only [call, Syscall.read]
    cases fdIndex fd with
    | none => split_ifs <;> exact ⟨[], rfl⟩
    | some i =>
      dsimp only
      split_ifs
      · exact ⟨[], rfl⟩
      · exact ⟨[], rfl⟩
      · exact ⟨[], rfl⟩
      · exact readOp_prints img cs p.dev keyBuf (p.fds i) buf nbytes
  | write fd buf nbytes =>
    simp only [call, Syscall.write]
    cases fdIndex fd with
    | none => split_ifs <;> exact ⟨[], rfl⟩
    | some i =>
      dsimp only
      split_ifs
      · exact ⟨[], rfl⟩
      · exact ⟨[], rfl⟩
      · exact ⟨[], rfl⟩
      · exact writeOp_prints cs p.dev (p.fds i) buf nbytes

theorem fileCall_kept (img : Image) (k : State) (p : Fin 6) (c : Call) :
    Kept k (fileCall img k p c) :=
  ⟨rfl, fun _ _ => rfl, rfl, rfl, call_prints img k.currScheduler _ c⟩

/-- Every event but the timer. -/
theorem step_kept {img : Image} {stack : ℕ → Stack} {k k' : State} {e : Event}
    (h : step img stack k e = some k') (he : e ≠ .tick) : Kept k k' := by
  obtain ⟨-, h⟩ := step_by h
  cases h with
  | firstShell => exact absurd rfl he
  | noProcess => exact absurd rfl he
  | newShell => exact absurd rfl he
  | turn => exact absurd rfl he
  | execute command p => exact executeBy_kept img stack k p command
  | halt status p =>
    have hnote : Kept k (k.note (.ended (k.trace.born p) status)) :=
      ⟨rfl, fun _ _ => rfl, rfl, rfl, [], rfl⟩
    exact hnote.trans (halt_kept img stack _ p status)
  | exception e p => exact trap_kept img stack k p e
  | call c p => exact fileCall_kept img k p c

end Ece391.Kernel
