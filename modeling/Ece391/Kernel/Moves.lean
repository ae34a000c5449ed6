import Ece391.Kernel.Scheduler

/-! What the operations of the kernel can do, one statement for each way an
operation ends. Invariants are proved from these and do not unfold the operations. -/

namespace Ece391.Kernel

open Function (update)
open Lib FileSys Syscall

/-- The fields of a PCB that tie it to its parent. -/
def Pcb.links (pcb : Pcb) : ℤ × ℤ × Option (Fin 6) := (pcb.pid, pcb.parentPid, pcb.parentPcb)

theorem Pcb.links_eq {a b : Pcb} (h : a.links = b.links) :
    a.pid = b.pid ∧ a.parentPid = b.parentPid ∧ a.parentPcb = b.parentPcb := by
  simpa [Pcb.links] using h

/-- Neither the processes nor the listing position changed. -/
structure Quiet (k k' : State) : Prop where
  terminal : k'.terminal = k.terminal
  pid : k'.pid = k.pid
  pcbs : k'.pcbs = k.pcbs
  currScheduler : k'.currScheduler = k.currScheduler
  globalHalt : k'.globalHalt = k.globalHalt
  directoryIndex : k'.dev.directoryIndex = k.dev.directoryIndex
  born : k'.trace.born = k.trace.born

/-! ### Starting a process -/

/-- A call of `execute` that failed a check. -/
structure Refused (k k' : State) : Prop extends Quiet k k' where
  counter : k'.processCounter = k.processCounter
  activations : k'.trace.activations = k.trace.activations + 1
  log : k'.trace.log = k.trace.log ++ [.returned k.trace.activations (-1)]

/-- A call of `execute` that passed the checks and found no pid. -/
structure Faulted (k k' : State) : Prop extends Quiet k k' where
  full : findPid k.pid = none
  counter : k'.processCounter = k.processCounter + 1
  activations : k'.trace.activations = k.trace.activations + 1
  log : k'.trace.log = k.trace.log ++ [.findPid (-1), .mapped (State.userEntry (-1))]

theorem Faulted.running_raise {k k' : State} (h : Faulted k k') {p : Fin 6}
    (hrun : k.running = some p) {e : Exception} : (raise k' p e).running = some p := by
  rw [← hrun]
  simp only [State.running, raise, State.note, State.print, h.terminal, h.currScheduler]

/-- A call of `execute` that created a process. The program is entered unless its
image runs out of the user page. -/
structure Entered (k k' : State) (slot : Fin 6) : Prop where
  found : findPid k.pid = some slot
  terminal : k'.terminal = update k.terminal k.currScheduler (some slot)
  pid : k'.pid = update k.pid slot occupied
  counter : k'.processCounter = k.processCounter + 1
  currScheduler : k'.currScheduler = k.currScheduler
  globalHalt : k'.globalHalt = k.globalHalt
  directoryIndex : k'.dev.directoryIndex = k.dev.directoryIndex
  activations : k'.trace.activations = k.trace.activations + 1
  born : k'.trace.born = update k.trace.born slot k.trace.activations
  links_slot : k.running ≠ some slot → (k'.pcbs slot).links =
    (↑slot, pidOf k.pcbs k.running, k.running)
  links_other : ∀ p ≠ slot, (k'.pcbs p).links = (k.pcbs p).links
  fds_slot : (k'.pcbs slot).fileDescriptor = initFds (k.pcbs slot).fileDescriptor
  fds_other : ∀ p ≠ slot, (k'.pcbs p).fileDescriptor = (k.pcbs p).fileDescriptor
  outcome : (k'.lost = true ∧
      k'.trace.log = k.trace.log ++ [.findPid slot, .mapped (State.userEntry slot)]) ∨
    (∃ entryPoint, k'.trace.log = k.trace.log ++ [.findPid slot, .mapped (State.userEntry slot),
        .spawned k.trace.activations slot k.running (initFds (k.pcbs slot).fileDescriptor)
          entryPoint]) ∧
      ∀ p, (k'.pcbs p).haltFrame =
        if k.running = some p then k.trace.activations else (k.pcbs p).haltFrame

theorem Entered.running {k k' : State} {slot : Fin 6} (h : Entered k k' slot) :
    k'.running = some slot := by
  rw [State.running, h.terminal, h.currScheduler, Function.update_self]

section InitPcb
variable (k : State) {slot : Fin 6} (arg : List UInt8)

theorem initPcb_other {p : Fin 6} (hp : p ≠ slot) : (initPcb k slot arg).pcbs p = k.pcbs p := by
  simp [initPcb, State.modifyPcb, hp]

theorem initPcb_fds : ((initPcb k slot arg).pcbs slot).fileDescriptor =
    initFds (k.pcbs slot).fileDescriptor := by
  simp [initPcb, State.modifyPcb]

theorem initPcb_haltFrame (p : Fin 6) :
    ((initPcb k slot arg).pcbs p).haltFrame = (k.pcbs p).haltFrame := by
  by_cases hp : p = slot
  · subst hp
    simp [initPcb, State.modifyPcb]
  · rw [initPcb_other k arg hp]

theorem initPcb_links (hne : k.running ≠ some slot) : ((initPcb k slot arg).pcbs slot).links =
    (↑slot, pidOf k.pcbs k.running, k.running) := by
  cases hr : k.running with
  | none => simp [initPcb, hr, State.modifyPcb, Pcb.links, pidOf]
  | some q =>
    have hq : q ≠ slot := by
      rintro rfl
      exact hne hr
    simp [initPcb, hr, State.modifyPcb, Pcb.links, pidOf, hq]

end InitPcb

/-- A saved frame shows nowhere else in a PCB. -/
theorem saveFrame_proj {β : Type*} (proj : Pcb → β)
    (hproj : ∀ pcb n, proj { pcb with haltFrame := n } = proj pcb) (k : State)
    (parent : Option (Fin 6)) (act : ℕ) (p : Fin 6) :
    proj ((saveFrame k parent act).pcbs p) = proj (k.pcbs p) := by
  simp only [saveFrame]
  split_ifs
  · exact hproj _ _
  · rfl

theorem saveFrame_haltFrame (k : State) (parent : Option (Fin 6)) (act : ℕ) (p : Fin 6) :
    ((saveFrame k parent act).pcbs p).haltFrame =
      if parent = some p then act else (k.pcbs p).haltFrame :=
  apply_ite Pcb.haltFrame _ _ _

theorem enter_entered (img : Image) (stack : Stack) (k : State) (slot : Fin 6) (d : Dentry)
    (arg : List UInt8) (hfound : findPid k.pid = some slot) :
    Entered k (enter img stack (claimPid (beginCall k) (some slot)) k.trace.activations slot d arg)
      slot := by
  set k₁ := claimPid (beginCall k) (some slot) with hk₁
  have hrun : k₁.running = k.running := rfl
  have hlog : k₁.trace.log = k.trace.log ++ [.findPid slot, .mapped (State.userEntry slot)] := by
    simp [hk₁, claimPid, State.mapUser, State.note, beginCall, pidValue]
  simp only [enter, hrun]
  split_ifs with hlong
  · exact ⟨hfound, rfl, rfl, rfl, rfl, rfl, rfl, rfl, rfl, initPcb_links k₁ arg,
      fun p hp => congrArg Pcb.links (initPcb_other k₁ arg hp), initPcb_fds k₁ arg,
      fun p hp => congrArg Pcb.fileDescriptor (initPcb_other k₁ arg hp), Or.inl ⟨rfl, hlog⟩⟩
  · have hlinks := saveFrame_proj Pcb.links (fun _ _ => rfl) (initPcb k₁ slot arg) k.running
      k.trace.activations
    have hfds := saveFrame_proj Pcb.fileDescriptor (fun _ _ => rfl) (initPcb k₁ slot arg) k.running
      k.trace.activations
    have hfds_slot := (hfds slot).trans (initPcb_fds k₁ arg)
    refine ⟨hfound, rfl, rfl, rfl, rfl, rfl, rfl, rfl, rfl, fun hne => ?_, fun p hp => ?_, hfds_slot,
      fun p hp => ?_, Or.inr ⟨⟨word32 (overlay (readData img d.inodeNum 24 true 4).bytes
        stack.entryPoint), ?_⟩, fun p => ?_⟩⟩
    · exact (hlinks slot).trans (initPcb_links k₁ arg hne)
    · exact (hlinks p).trans (congrArg Pcb.links (initPcb_other k₁ arg hp))
    · exact (hfds p).trans (congrArg Pcb.fileDescriptor (initPcb_other k₁ arg hp))
    · have hnote := congrArg₂ (fun l fds => l ++ [Obs.spawned k.trace.activations slot k.running fds
        (word32 (overlay (readData img d.inodeNum 24 true 4).bytes stack.entryPoint))])
        hlog hfds_slot
      rw [List.append_assoc] at hnote
      exact hnote
    · have hframe := saveFrame_haltFrame (initPcb k₁ slot arg) k.running k.trace.activations p
      rw [initPcb_haltFrame] at hframe
      exact hframe

/-- The command passes the checks of `execute`. -/
def Admitted (img : Image) (stack : ℕ → Stack) (k : State) (command : Option CString) : Prop :=
  (admission img (stack k.trace.activations) k command).accepts = true

instance (img : Image) (stack : ℕ → Stack) (k : State) (command : Option CString) :
    Decidable (Admitted img stack k command) := inferInstanceAs (Decidable (_ = true))

/-- The three ways a call of `execute` can end. -/
theorem execute_cases (img : Image) (stack : ℕ → Stack) (k : State) (command : Option CString) :
    (execute img stack k command).2 = .returned ∧ Refused k (execute img stack k command).1 ∨
    (execute img stack k command).2 = .pageFault ∧ Admitted img stack k command ∧
      Faulted k (execute img stack k command).1 ∨
    (execute img stack k command).2 = .entered ∧ Admitted img stack k command ∧
      ∃ slot, Entered k (execute img stack k command).1 slot := by
  simp only [execute]
  have haccepts : Admitted img stack k command =
      ((admission img (stack k.trace.activations) (beginCall k) command).accepts = true) := rfl
  rw [haccepts]
  cases admission img (stack k.trace.activations) (beginCall k) command with
  | refused message => exact Or.inl ⟨rfl, ⟨rfl, rfl, rfl, rfl, rfl, rfl, rfl⟩, rfl, rfl, rfl⟩
  | admitted d arg =>
    cases hfind : findPid (beginCall k).pid with
    | none =>
      refine Or.inr (Or.inl ⟨rfl, rfl, ⟨rfl, rfl, rfl, rfl, rfl, rfl, rfl⟩, hfind, rfl, rfl, ?_⟩)
      simp [claimPid, State.mapUser, State.note, beginCall, pidValue]
    | some slot =>
      exact Or.inr (Or.inr ⟨rfl, rfl, slot, enter_entered img _ k slot d arg hfind⟩)

theorem execute_not_returned {img : Image} {stack : ℕ → Stack} {k : State} {command : Option CString}
    (h : Admitted img stack k command) : (execute img stack k command).2 ≠ .returned := by
  have haccepts : (admission img (stack k.trace.activations) (beginCall k) command).accepts = true := h
  simp only [execute]
  cases hadm : admission img (stack k.trace.activations) (beginCall k) command with
  | refused message =>
    rw [hadm] at haccepts
    cases haccepts
  | admitted d arg => cases findPid (beginCall k).pid <;> simp

/-- A shell started by the kernel itself: the kernel is lost after a refusal or a
page fault. -/
def Started (k k' : State) : Prop :=
  (∃ slot, Entered k k' slot) ∨ k'.lost = true ∧ (Refused k k' ∨ Faulted k k')

theorem startShell_started (img : Image) (stack : ℕ → Stack) (k : State) :
    Started k (startShell img stack k) := by
  have hcases := execute_cases img stack k (some shellName)
  simp only [startShell]
  rcases hexec : execute img stack k (some shellName) with ⟨k', r⟩
  simp only [hexec] at hcases
  rcases hcases with ⟨rfl, h⟩ | ⟨rfl, -, h⟩ | ⟨rfl, -, h⟩
  · exact Or.inr ⟨rfl, Or.inl ⟨⟨h.terminal, h.pid, h.pcbs, h.currScheduler, h.globalHalt,
      h.directoryIndex, h.born⟩, h.counter, h.activations, h.log⟩⟩
  · exact Or.inr ⟨rfl, Or.inr ⟨⟨h.terminal, h.pid, h.pcbs, h.currScheduler, h.globalHalt,
      h.directoryIndex, h.born⟩, h.full, h.counter, h.activations, h.log⟩⟩
  · exact Or.inl h

/-! ### Ending a process -/

/-- The state in which the root of a terminal starts its shell again. -/
def freed (k : State) (p : Fin 6) : State :=
  { k with
    pid := update k.pid (k.pcbs p).pid vacant
    terminal := update k.terminal k.currScheduler none
    processCounter := k.processCounter - 1 }

/-- The end of the process `p`: its parent `q` is back in its call of `execute`. -/
structure ReturnedTo (k k' : State) (p q : Fin 6) : Prop where
  terminal : k'.terminal = update k.terminal k.currScheduler (some q)
  pid : k'.pid = update k.pid (k.pcbs p).pid vacant
  counter : k'.processCounter = k.processCounter - 1
  currScheduler : k'.currScheduler = k.currScheduler
  globalHalt : k'.globalHalt = if k.globalHalt = 1 then 0 else k.globalHalt
  directoryIndex : k'.dev.directoryIndex = k.dev.directoryIndex
  activations : k'.trace.activations = k.trace.activations
  born : k'.trace.born = k.trace.born
  links : ∀ i, (k'.pcbs i).links = (k.pcbs i).links
  haltFrame : ∀ i, (k'.pcbs i).haltFrame = (k.pcbs i).haltFrame
  fds_ended : (k'.pcbs p).fileDescriptor = closeAll (k.pcbs p).fileDescriptor k.dev
  fds_other : ∀ i ≠ p, (k'.pcbs i).fileDescriptor = (k.pcbs i).fileDescriptor
  log : k'.trace.log = k.trace.log ++ [.mapped (State.userEntry (k.pcbs p).parentPid),
    .returned (k.pcbs q).haltFrame (if k.globalHalt = 1 then 256 else 0)]

theorem ReturnedTo.running {k k' : State} {p q : Fin 6} (h : ReturnedTo k k' p q) :
    k'.running = some q := by
  rw [State.running, h.terminal, h.currScheduler, Function.update_self]

/-- An update of a PCB that a projection does not see. -/
theorem update_proj {β : Type*} (proj : Pcb → β) (pcbs : Fin 6 → Pcb) (p i : Fin 6) {pcb : Pcb}
    (hproj : proj pcb = proj (pcbs p)) : proj (update pcbs p pcb i) = proj (pcbs i) := by
  by_cases hi : i = p
  · subst hi
    rw [Function.update_self, hproj]
  · rw [Function.update_of_ne hi]

theorem resume_eq (k : State) (act : ℕ) : resume k act =
    { k with
      globalHalt := if k.globalHalt = 1 then 0 else k.globalHalt
      trace := { k.trace with
        log := k.trace.log ++ [.returned act (if k.globalHalt = 1 then 256 else 0)] } } := by
  unfold resume
  split_ifs <;> rfl

theorem handBack_pcbs (k : State) (p q : Fin 6) (status : UInt8) :
    (handBack k p q status).pcbs = update k.pcbs p
      { k.pcbs p with fileDescriptor := closeAll (k.pcbs p).fileDescriptor k.dev } := rfl

theorem handBack_log (k : State) (p q : Fin 6) (status : UInt8) :
    (handBack k p q status).trace.log =
      k.trace.log ++ [.mapped (State.userEntry (k.pcbs p).parentPid)] := rfl

theorem handBack_globalHalt (k : State) (p q : Fin 6) (status : UInt8) :
    (handBack k p q status).globalHalt = k.globalHalt := rfl

theorem halt_child (img : Image) (stack : ℕ → Stack) {k : State} {p q : Fin 6} (status : UInt8)
    (h : (k.pcbs p).parentPid ≠ -1) (hq : (k.pcbs p).parentPcb = some q) :
    ReturnedTo k (halt img stack k p status) p q := by
  simp only [halt, if_neg h, hq, resume_eq]
  refine ⟨rfl, rfl, rfl, rfl, rfl, rfl, rfl, rfl, fun i => ?_, fun i => ?_, ?_, fun i hi => ?_, ?_⟩
  · simp only [handBack_pcbs]
    exact update_proj Pcb.links k.pcbs p i (by simp only [Pcb.links])
  · simp only [handBack_pcbs]
    exact update_proj Pcb.haltFrame k.pcbs p i rfl
  · simp only [handBack_pcbs, Function.update_self]
  · simp only [handBack_pcbs, Function.update_of_ne hi]
  · simp only [handBack_log, handBack_globalHalt, List.append_assoc, List.cons_append,
      List.nil_append]
    rfl

/-- The end of a process: a new shell for a root, a return to the parent for others. -/
inductive Ended (k : State) (p : Fin 6) (k' : State) : Prop
  | root (h : (k.pcbs p).parentPid = -1) (hs : Started (freed k p) k')
  | child (q : Fin 6) (h : (k.pcbs p).parentPid ≠ -1) (hq : (k.pcbs p).parentPcb = some q)
    (hr : ReturnedTo k k' p q)
  | orphan (h : (k.pcbs p).parentPid ≠ -1) (hq : (k.pcbs p).parentPcb = none)

theorem halt_ended (img : Image) (stack : ℕ → Stack) (k : State) (p : Fin 6) (status : UInt8) :
    Ended k p (halt img stack k p status) := by
  by_cases h : (k.pcbs p).parentPid = -1
  · refine .root h ?_
    simp only [halt, h, if_true]
    exact startShell_started img stack (freed k p)
  · cases hq : (k.pcbs p).parentPcb with
    | none => exact .orphan h hq
    | some q => exact .child q h hq (halt_child img stack status h hq)

/-! ### One step -/

theorem clearScreen_quiet (k : State) : Quiet k (clearScreen k) := by
  constructor <;> simp only [clearScreen]

theorem clearScreen_counter (k : State) : (clearScreen k).processCounter = k.processCounter := by
  simp only [clearScreen]

theorem clearScreen_log (k : State) : (clearScreen k).trace.log = k.trace.log ++ [] := by
  simp only [clearScreen, List.append_nil]

/-- A call on a descriptor is observed only where it concerns a directory. -/
theorem mem_observe {act : ℕ} {fds : Fds} {c : Call} {out : CallOut} {o : Obs}
    (h : o ∈ observe act fds c out) :
    (∃ fd, o = .dirOpened act fd) ∨ ∃ fd ret stored, o = .dirRead act fd ret stored := by
  simp only [observe, List.mem_append, Option.mem_toList, Option.map_eq_some_iff] at h
  rcases h with ⟨fd, -, rfl⟩ | ⟨fd, -, rfl⟩
  · exact Or.inl ⟨fd, rfl⟩
  · exact Or.inr ⟨fd, _, _, rfl⟩

/-- The running process is the root of its terminal. -/
def RunsRoot (k : State) : Prop := ∃ p, k.running = some p ∧ (k.pcbs p).parentPid = -1

instance : DecidablePred RunsRoot := fun _ => inferInstanceAs (Decidable (∃ _, _ ∧ _))

/-- The event makes the running process take an exception: one of its own, or the
page fault of a call of `execute` that finds no pid. -/
def Traps (img : Image) (stack : ℕ → Stack) (k : State) : Event → Prop
  | .exception _ => True
  | .execute command => Admitted img stack k command ∧ findPid k.pid = none
  | _ => False

instance decidableTraps (img : Image) (stack : ℕ → Stack) (k : State) :
    (e : Event) → Decidable (Traps img stack k e)
  | .exception _ => isTrue trivial
  | .execute _ => inferInstanceAs (Decidable (_ = true ∧ _))
  | .halt _ => isFalse id
  | .tick => isFalse id
  | .call _ => isFalse id

/-- The operation behind a step. -/
inductive StepBy (img : Image) (stack : ℕ → Stack) (k : State) : Event → State → Prop
  | firstShell (hrun : k.running = none) (hcs : k.currScheduler = 0) :
    StepBy img stack k .tick (startShell img stack (clearScreen k))
  | noProcess (hrun : k.running = none) (hcs : k.currScheduler ≠ 0) :
    StepBy img stack k .tick { k with lost := true }
  | newShell (p : Fin 6) (hrun : k.running = some p) (hnext : (nextTurn k).running = none) :
    StepBy img stack k .tick (startShell img stack (nextTurn k))
  | turn (p q : Fin 6) (hrun : k.running = some p) (hnext : (nextTurn k).running = some q) :
    StepBy img stack k .tick (continueProcess (nextTurn k) q)
  | execute (command : Option CString) (p : Fin 6) (hrun : k.running = some p) :
    StepBy img stack k (.execute command) (executeBy img stack k p command)
  | halt (status : UInt8) (p : Fin 6) (hrun : k.running = some p) :
    StepBy img stack k (.halt status)
      (halt img stack (k.note (.ended (k.trace.born p) status)) p status)
  | exception (e : Exception) (p : Fin 6) (hrun : k.running = some p) :
    StepBy img stack k (.exception e) (trap img stack k p e)
  | call (c : Call) (p : Fin 6) (hrun : k.running = some p) :
    StepBy img stack k (.call c) (fileCall img k p c)

theorem step_by {img : Image} {stack : ℕ → Stack} {k k' : State} {e : Event}
    (h : step img stack k e = some k') : k.lost = false ∧ StepBy img stack k e k' := by
  simp only [step] at h
  split_ifs at h with hlost
  refine ⟨by simpa using hlost, ?_⟩
  cases hrun : k.running with
  | none =>
    cases e with
    | tick =>
      obtain rfl : scheduler img stack k = k' := by simpa [hrun] using h
      simp only [scheduler, hrun]
      split_ifs with hcs
      · exact .firstShell hrun hcs
      · exact .noProcess hrun hcs
    | _ => simp [hrun] at h
  | some p =>
    cases e with
    | tick =>
      obtain rfl : scheduler img stack k = k' := by simpa [hrun] using h
      simp only [scheduler, hrun]
      cases hnext : (nextTurn k).running with
      | none => exact .newShell p hrun hnext
      | some q => exact .turn p q hrun hnext
    | execute command =>
      obtain rfl : executeBy img stack k p command = k' := by simpa [hrun] using h
      exact .execute command p hrun
    | halt status =>
      obtain rfl : Kernel.halt img stack (k.note (.ended (k.trace.born p) status)) p status = k' := by
        simpa [hrun] using h
      exact .halt status p hrun
    | exception x =>
      obtain rfl : trap img stack k p x = k' := by simpa [hrun] using h
      exact .exception x p hrun
    | call c =>
      obtain rfl : fileCall img k p c = k' := by simpa [hrun] using h
      exact .call c p hrun

/-- Everything a step can do. -/
inductive StepOf (img : Image) (stack : ℕ → Stack) (k k' : State) : Event → Prop
  | firstShell (hrun : k.running = none) (hcs : k.currScheduler = 0)
    (hs : Started (clearScreen k) k') : StepOf img stack k k' .tick
  | noProcess (hrun : k.running = none) (hk : k' = { k with lost := true }) :
    StepOf img stack k k' .tick
  | newShell (hrun : k.running ≠ none) (hnext : (nextTurn k).running = none)
    (hs : Started (nextTurn k) k') : StepOf img stack k k' .tick
  | turn (p : Fin 6) (hrun : k.running ≠ none) (hnext : (nextTurn k).running = some p)
    (hk : k' = continueProcess (nextTurn k) p) : StepOf img stack k k' .tick
  | refused (command : Option CString) (p : Fin 6) (hrun : k.running = some p) (h : Refused k k') :
    StepOf img stack k k' (.execute command)
  | entered (command : Option CString) (p slot : Fin 6) (hrun : k.running = some p)
    (hadm : Admitted img stack k command) (h : Entered k k' slot) :
    StepOf img stack k k' (.execute command)
  | faulted (command : Option CString) (p : Fin 6) (k₁ : State) (hrun : k.running = some p)
    (hadm : Admitted img stack k command) (hf : Faulted k k₁) (h : Ended (raise k₁ p .pf) p k') :
    StepOf img stack k k' (.execute command)
  | halt (status : UInt8) (p : Fin 6) (hrun : k.running = some p)
    (h : Ended (k.note (.ended (k.trace.born p) status)) p k') : StepOf img stack k k' (.halt status)
  | exception (e : Exception) (p : Fin 6) (hrun : k.running = some p)
    (h : Ended (raise k p e) p k') : StepOf img stack k k' (.exception e)
  | call (c : Call) (p : Fin 6) (hrun : k.running = some p) (hk : k' = fileCall img k p c) :
    StepOf img stack k k' (.call c)

theorem step_cases {img : Image} {stack : ℕ → Stack} {k k' : State} {e : Event}
    (h : step img stack k e = some k') : k.lost = false ∧ StepOf img stack k k' e := by
  obtain ⟨hlost, h⟩ := step_by h
  refine ⟨hlost, ?_⟩
  cases h with
  | firstShell hrun hcs => exact .firstShell hrun hcs (startShell_started img stack _)
  | noProcess hrun hcs => exact .noProcess hrun rfl
  | newShell p hrun hnext =>
    have hsome : k.running ≠ none := by simp [hrun]
    exact .newShell hsome hnext (startShell_started img stack _)
  | turn p q hrun hnext =>
    have hsome : k.running ≠ none := by simp [hrun]
    exact .turn q hsome hnext rfl
  | execute command p hrun =>
    have hcases := execute_cases img stack k command
    simp only [executeBy]
    rcases hexec : execute img stack k command with ⟨k₁, r⟩
    simp only [hexec] at hcases
    rcases hcases with ⟨rfl, hr⟩ | ⟨rfl, hadm, hf⟩ | ⟨rfl, hadm, slot, he⟩
    · exact .refused command p hrun hr
    · exact .faulted command p k₁ hrun hadm hf (halt_ended img stack _ p 1)
    · exact .entered command p slot hrun hadm he
  | halt status p hrun => exact .halt status p hrun (halt_ended img stack _ p status)
  | exception x p hrun => exact .exception x p hrun (halt_ended img stack _ p 1)
  | call c p hrun => exact .call c p hrun rfl

end Ece391.Kernel
