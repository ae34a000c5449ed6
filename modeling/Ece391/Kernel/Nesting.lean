import Ece391.Kernel.Chains
import Ece391.Kernel.Frames

/-! The scheduler interrupted by itself. Calls and exceptions leave the interrupt flag
set, and the scheduler sets it again before it starts a shell, so a further interrupt
of the timer may come before `execute` clears it. Here `halt`, the exception handlers
and the start of a shell are cut behind every store that the scheduler or the code of
another terminal reads. `execute` itself runs with the flag clear.

The scheduler keeps the registers of the code it interrupts in the PCB of the terminal. A
terminal goes on where it was interrupted as long as its PCB keeps the registers of its own
code. -/

namespace Ece391.Kernel

open Function (update)
open Lib FileSys Syscall Devices Support.Runs

/-- Where the code of a terminal stands. -/
inductive Point
  /-- In a program or a call, or in the idle loop before the first shell. -/
  | user
  /-- In the scheduler, between `sti` and the `cli` of `execute`; the very first shell
  has the screen cleared for it. -/
  | starting (first : Bool)
  /-- In an exception handler, with `global_halt` set. -/
  | trapped
  /-- In `halt`, with the pid given back. -/
  | halting (status : UInt8)
  /-- In `halt` of a root, with the PCB of the terminal set to NULL. -/
  | unseated
  /-- The same with the process counted off; `execute` has not begun. -/
  | restarting
  /-- In `halt`, on the stack of the parent in call number `act`, with the files closed. -/
  | leaving (status : UInt8) (act : ℕ)
  /-- The same with the terminal handed to the parent. -/
  | seated (status : UInt8) (act : ℕ)
  /-- Before the label `return` of call number `act`. -/
  | returning (act : ℕ)
  deriving DecidableEq

namespace Point

/-- `terminal[curr_scheduler].pcb` is NULL here, and the interrupt flag is set. -/
def isOpen : Point → Bool
  | starting _ | unseated | restarting => true
  | _ => false

/-- The next thing that happens here is a call of `execute("shell")`. -/
def startsShell : Point → Bool
  | starting _ | restarting => true
  | _ => false

def isLeaving : Point → Bool
  | leaving _ _ => true
  | _ => false

/-- The process of the terminal has given its pid back. -/
def isVacated : Point → Bool
  | halting _ | leaving _ _ => true
  | _ => false

end Point

/-- The kernel with the place of each terminal's code. -/
structure Nest where
  kernel : State
  point : Fin 3 → Point
  /-- The terminal whose `ebp` and `esp` a PCB keeps, if the scheduler has ever used it. -/
  saved : Fin 6 → Option (Fin 3)
  /-- The scheduler has used a NULL `terminal[curr_scheduler].pcb`. -/
  nullAccess : Bool
  /-- The scheduler has restored registers that are not those of the terminal. -/
  strayed : Bool

inductive NestEvent
  /-- An interrupt of the timer. -/
  | pit
  /-- The running code goes on from its point. -/
  | go
  /-- The running program calls the kernel or takes an exception. -/
  | program (e : Event)

namespace Nest

/-- The running code moves to a point. -/
def moveTo (s : Nest) (p : Point) : Nest :=
  { s with point := update s.point s.kernel.currScheduler p }

theorem moveTo_point (s : Nest) (p : Point) : (s.moveTo p).point s.kernel.currScheduler = p :=
  Function.update_self _ _ _

theorem moveTo_other (s : Nest) (p : Point) {t : Fin 3} (ht : t ≠ s.kernel.currScheduler) :
    (s.moveTo p).point t = s.point t :=
  Function.update_of_ne ht _ _

/-- `scheduler` up to the first `sti`, or to its end. -/
def pit (s : Nest) : Nest :=
  match s.kernel.running with
  | none =>
    if s.kernel.currScheduler = 0 then s.moveTo (.starting true) else { s with nullAccess := true }
  | some p =>
    let s := { s with
      saved := update s.saved p (some s.kernel.currScheduler), kernel := nextTurn s.kernel }
    match s.kernel.running with
    | none => s.moveTo (.starting false)
    | some q =>
      if s.saved q = some s.kernel.currScheduler then
        { s with kernel := continueProcess s.kernel q }
      else { s with strayed := true }

/-- `execute("shell")` in the scheduler. If it returned, the scheduler would go on with
the NULL pointer. -/
def startFrom (img : Image) (stack : ℕ → Stack) (s : Nest) (first : Bool) : Nest :=
  let k := if first then clearScreen s.kernel else s.kernel
  match execute img stack k (some shellName) with
  | (k, .entered) => { s with kernel := k }.moveTo .user
  | (k, .returned) => { s with kernel := k, nullAccess := true }
  | (k, .pageFault) => { s with kernel := { k with lost := true } }

/-- The first store of `halt`. -/
def vacate (k : State) (p : Fin 6) : State := { k with pid := update k.pid (k.pcbs p).pid vacant }

/-- The two stores of `halt` for a root. -/
def unseat (k : State) : State := { k with terminal := update k.terminal k.currScheduler none }

def countOff (k : State) : State := { k with processCounter := k.processCounter - 1 }

/-- The other branch up to the loop that closes the descriptors. -/
def restoreParent (k : State) (p : Fin 6) : State :=
  let k := (k.mapUser (k.pcbs p).parentPid).setEsp0 (k.pcbs p).parentPid
  k.modifyPcb p fun pcb => { pcb with fileDescriptor := closeAll pcb.fileDescriptor k.dev }

/-- Its store to the terminal. -/
def seatParent (k : State) (p : Fin 6) : State :=
  { k with terminal := update k.terminal k.currScheduler (k.pcbs p).parentPcb }

/-- The code of the process `p` goes on in `halt` behind the first store. -/
def haltFrom (s : Nest) (p : Fin 6) (status : UInt8) : Nest :=
  if (s.kernel.pcbs p).parentPid = -1 then { s with kernel := unseat s.kernel }.moveTo .unseated
  else match (s.kernel.pcbs p).parentPcb with
    | none => { s with kernel := { s.kernel with lost := true } }
    | some q => { s with kernel := restoreParent s.kernel p }.moveTo
        (.leaving status (s.kernel.pcbs q).haltFrame)

/-- The running code goes on, from a point inside the kernel. -/
def go (img : Image) (stack : ℕ → Stack) (s : Nest) : Option Nest :=
  match s.point s.kernel.currScheduler, s.kernel.running with
  | .starting first, _ => some (s.startFrom img stack first)
  | .trapped, some p => some ({ s with kernel := vacate s.kernel p }.moveTo (.halting 1))
  | .halting status, some p => some (s.haltFrom p status)
  | .unseated, _ => some ({ s with kernel := countOff s.kernel }.moveTo .restarting)
  | .restarting, _ => some ({ s with kernel := startShell img stack s.kernel }.moveTo .user)
  | .leaving status act, some p =>
    some ({ s with kernel := seatParent s.kernel p }.moveTo (.seated status act))
  | .seated status act, _ =>
    some ({ s with kernel := { countOff s.kernel with globalStatus := status } }.moveTo
      (.returning act))
  | .returning act, _ => some ({ s with kernel := resume s.kernel act }.moveTo .user)
  | _, _ => none

/-- The running program calls the kernel. `execute` and the calls on descriptors are one
step, after which a program runs. -/
def program (img : Image) (stack : ℕ → Stack) (s : Nest) (p : Fin 6) : Event → Option Nest
  | .execute command =>
    some ({ s with kernel := executeBy img stack s.kernel p command }.moveTo .user)
  | .call c => some ({ s with kernel := fileCall img s.kernel p c }.moveTo .user)
  | .halt status => some ({ s with
      kernel := vacate (s.kernel.note (.ended (s.kernel.trace.born p) status)) p }.moveTo
        (.halting status))
  | .exception e => some ({ s with kernel := raise s.kernel p e }.moveTo .trapped)
  | .tick => none

/-- The kernel has just booted. -/
structure Boot (s : Nest) : Prop where
  kernel : s.kernel.Boot
  point : ∀ t, s.point t = .user
  nullAccess : s.nullAccess = false
  strayed : s.strayed = false

end Nest

/-- One step; there is none once the scheduler has used NULL or strayed, or the kernel is
lost. -/
def nestStep (img : Image) (stack : ℕ → Stack) (s : Nest) (e : NestEvent) : Option Nest :=
  if s.nullAccess = true ∨ s.strayed = true ∨ s.kernel.lost = true then none
  else match e, s.point s.kernel.currScheduler, s.kernel.running with
    | .pit, _, _ => some s.pit
    | .go, _, _ => s.go img stack
    | .program e, .user, some p => s.program img stack p e
    | .program _, _, _ => none

/-- A kernel that has just booted in cleared memory. -/
def Nest.cleared : Nest := ⟨.cleared, fun _ => .user, fun _ => none, false, false⟩

theorem Nest.cleared_boot : Nest.cleared.Boot := ⟨State.cleared_boot, fun _ => rfl, rfl, rfl⟩

/-! ### Without an interrupt in between -/

/-- The parts of `halt` make up `halt`. -/
theorem halt_eq (img : Image) (stack : ℕ → Stack) (k : State) (p : Fin 6) (status : UInt8) :
    halt img stack k p status =
      if (k.pcbs p).parentPid = -1 then
        startShell img stack (Nest.countOff (Nest.unseat (Nest.vacate k p)))
      else match (k.pcbs p).parentPcb with
        | none => { Nest.vacate k p with lost := true }
        | some q => resume { Nest.countOff (Nest.seatParent
            (Nest.restoreParent (Nest.vacate k p) p) p) with globalStatus := status }
              (k.pcbs q).haltFrame := by
  simp only [halt]
  split_ifs with hroot
  · rfl
  · cases hq : (k.pcbs p).parentPcb with
    | none => rfl
    | some q =>
      simp only [handBack]
      congr 1
      simp [Nest.countOff, Nest.seatParent, Nest.restoreParent, Nest.vacate, State.modifyPcb,
        State.setEsp0, State.mapUser, State.note, hq]

/-- The running code is at a point, and the other terminals are in programs. -/
def Nest.alone (saved : Fin 6 → Option (Fin 3)) (k : State) (p : Point) : Nest :=
  ⟨k, update (fun _ => .user) k.currScheduler p, saved, false, false⟩

section Uninterrupted
variable {img : Image} {stack : ℕ → Stack} {saved : Fin 6 → Option (Fin 3)} {k k' : State} {p : Point}

@[simp] theorem alone_kernel : (Nest.alone saved k p).kernel = k := rfl

@[simp] theorem alone_nullAccess : (Nest.alone saved k p).nullAccess = false := rfl

@[simp] theorem alone_strayed : (Nest.alone saved k p).strayed = false := rfl

@[simp] theorem alone_point : (Nest.alone saved k p).point k.currScheduler = p := by simp [Nest.alone]

theorem alone_moveTo (p' : Point) (hcs : k'.currScheduler = k.currScheduler) :
    { Nest.alone saved k p with kernel := k' }.moveTo p' = Nest.alone saved k' p' := by
  simp only [Nest.moveTo, Nest.alone, hcs, Function.update_idem]

/-- The code that is alone goes on to the next point. -/
theorem alone_go {p' : Point} (hlost : k.lost = false) (hcs : k'.currScheduler = k.currScheduler)
    (h : (Nest.alone saved k p).go img stack =
      some ({ Nest.alone saved k p with kernel := k' }.moveTo p')) :
    nestStep img stack (Nest.alone saved k p) .go = some (Nest.alone saved k' p') := by
  rw [alone_moveTo p' hcs] at h
  simp [nestStep, hlost, h]

section Halt
variable {q : Fin 6} {status : UInt8} {act : ℕ} (hlost : k.lost = false)
include hlost

theorem go_trapped (hrun : k.running = some q) :
    nestStep img stack (Nest.alone saved k .trapped) .go =
      some (Nest.alone saved (Nest.vacate k q) (.halting 1)) :=
  alone_go hlost rfl (by simp [Nest.go, hrun])

theorem go_halting_root (hrun : k.running = some q) (hroot : (k.pcbs q).parentPid = -1) :
    nestStep img stack (Nest.alone saved k (.halting status)) .go =
      some (Nest.alone saved (Nest.unseat k) .unseated) :=
  alone_go hlost rfl (by simp [Nest.go, hrun, Nest.haltFrom, hroot])

theorem go_unseated : nestStep img stack (Nest.alone saved k .unseated) .go =
    some (Nest.alone saved (Nest.countOff k) .restarting) :=
  alone_go hlost rfl (by simp [Nest.go])

theorem go_restarting :
    nestStep img stack (Nest.alone saved k .restarting) .go =
      some (Nest.alone saved (startShell img stack k) .user) :=
  alone_go hlost (startShell_kept img stack k).currScheduler (by simp [Nest.go])

theorem go_halting_child {r : Fin 6} (hrun : k.running = some q)
    (hchild : (k.pcbs q).parentPid ≠ -1) (hr : (k.pcbs q).parentPcb = some r) :
    nestStep img stack (Nest.alone saved k (.halting status)) .go =
      some (Nest.alone saved (Nest.restoreParent k q) (.leaving status (k.pcbs r).haltFrame)) :=
  alone_go hlost rfl (by simp [Nest.go, hrun, Nest.haltFrom, hchild, hr])

theorem go_leaving (hrun : k.running = some q) :
    nestStep img stack (Nest.alone saved k (.leaving status act)) .go =
      some (Nest.alone saved (Nest.seatParent k q) (.seated status act)) :=
  alone_go hlost rfl (by simp [Nest.go, hrun])

theorem go_seated : nestStep img stack (Nest.alone saved k (.seated status act)) .go =
    some (Nest.alone saved { Nest.countOff k with globalStatus := status } (.returning act)) :=
  alone_go hlost rfl (by simp [Nest.go])

theorem go_returning : nestStep img stack (Nest.alone saved k (.returning act)) .go =
    some (Nest.alone saved (resume k act) .user) :=
  alone_go hlost (by rw [resume_eq]) (by simp [Nest.go])

/-- `halt` behind its first store, step by step. -/
theorem run_halt (saved : Fin 6 → Option (Fin 3)) (hrun : k.running = some q)
    (h : (halt img stack k q status).lost = false) :
    ∃ es, run (nestStep img stack) (Nest.alone saved (Nest.vacate k q) (.halting status)) es =
      some (Nest.alone saved (halt img stack k q status) .user) := by
  rw [halt_eq] at h ⊢
  split_ifs at h ⊢ with hroot
  · refine ⟨[.go, .go, .go], ?_⟩
    simp only [run, Option.bind_some, go_halting_root (k := Nest.vacate k q) hlost hrun hroot,
      go_unseated (k := Nest.unseat (Nest.vacate k q)) hlost,
      go_restarting (k := Nest.countOff (Nest.unseat (Nest.vacate k q))) hlost]
  · cases hr : (k.pcbs q).parentPcb with
    | none => simp [hr] at h
    | some r =>
      refine ⟨[.go, .go, .go, .go], ?_⟩
      simp only [run, Option.bind_some, go_halting_child (k := Nest.vacate k q) hlost hrun hroot hr,
        go_leaving (k := Nest.restoreParent (Nest.vacate k q) q) hlost hrun,
        go_seated (k := Nest.seatParent (Nest.restoreParent (Nest.vacate k q) q) q) hlost]
      rw [go_returning]
      · rfl
      · exact hlost

end Halt

/-- The start of a shell in the scheduler. -/
theorem go_starting {first : Bool} (hlost : k.lost = false)
    (hstart : (startShell img stack (if first then clearScreen k else k)).lost = false) :
    nestStep img stack (Nest.alone saved k (.starting first)) .go =
      some (Nest.alone saved (startShell img stack (if first then clearScreen k else k)) .user) := by
  have hcs : (if first then clearScreen k else k).currScheduler = k.currScheduler := by
    cases first
    · rfl
    · exact (clearScreen_quiet k).currScheduler
  refine alone_go hlost ((startShell_kept img stack _).currScheduler.trans hcs) ?_
  simp only [Nest.go, alone_point, alone_kernel, Nest.startFrom, startShell] at hstart ⊢
  generalize execute img stack (if first then clearScreen k else k) (some shellName) = out at hstart ⊢
  rcases out with ⟨k', _ | _ | _⟩
  · cases hstart
  · rfl
  · cases hstart

/-- The program that is alone calls the kernel. -/
theorem alone_program (k' : State) {q : Fin 6} {e : Event} (hlost : k.lost = false)
    (hrun : k.running = some q) (hcs : k'.currScheduler = k.currScheduler)
    (h : (Nest.alone saved k .user).program img stack q e =
      some ({ Nest.alone saved k .user with kernel := k' }.moveTo p)) :
    nestStep img stack (Nest.alone saved k .user) (.program e) = some (Nest.alone saved k' p) := by
  rw [alone_moveTo p hcs] at h
  simp [nestStep, hlost, hrun, h]

section Pit
variable (hlost : k.lost = false)
include hlost

theorem pit_first (hrun : k.running = none) (hcs : k.currScheduler = 0) :
    nestStep img stack (Nest.alone saved k .user) .pit = some (Nest.alone saved k (.starting true)) := by
  rw [← alone_moveTo (k := k) (p := .user) (.starting true) rfl]
  simp only [nestStep, alone_kernel, alone_nullAccess, alone_strayed, hlost, Nest.pit, hrun, hcs,
    Bool.false_eq_true, or_self, if_false, if_true]
  rfl

theorem pit_new {q : Fin 6} (hrun : k.running = some q) (hnext : (nextTurn k).running = none) :
    nestStep img stack (Nest.alone saved k .user) .pit =
      some (Nest.alone (update saved q (some k.currScheduler)) (nextTurn k) (.starting false)) := by
  simp only [nestStep, hlost, Nest.pit, hrun, hnext, Bool.false_eq_true, or_self, if_false,
    Nest.moveTo, Nest.alone, Function.update_eq_self]

theorem pit_turn {q r : Fin 6} (hrun : k.running = some q) (hnext : (nextTurn k).running = some r)
    (hsaved : update saved q (some k.currScheduler) r = some (nextTurn k).currScheduler) :
    nestStep img stack (Nest.alone saved k .user) .pit =
      some (Nest.alone (update saved q (some k.currScheduler)) (continueProcess (nextTurn k) r)
        .user) := by
  simp only [nestStep, hlost, Nest.pit, hrun, hnext, Bool.false_eq_true, or_self, if_false, Nest.alone,
    Function.update_eq_self, hsaved, if_true]

end Pit

/-- Every terminal but the running one finds its own registers in its PCB. -/
def OwnRegisters (saved : Fin 6 → Option (Fin 3)) (k : State) : Prop :=
  ∀ t ≠ k.currScheduler, ∀ q, k.terminal t = some q → saved q = some t

/-- What the scheduler saves, with the PCBs of the terminals apart. -/
theorem OwnRegisters.save (h : OwnRegisters saved k) {q : Fin 6} (hrun : k.running = some q)
    (hapart : ∀ t u r, k.terminal t = some r → k.terminal u = some r → t = u) {t : Fin 3} {r : Fin 6}
    (hr : k.terminal t = some r) : update saved q (some k.currScheduler) r = some t := by
  by_cases hqr : r = q
  · subst hqr
    rw [Function.update_self, hapart k.currScheduler t r hrun hr]
  · rw [Function.update_of_ne hqr]
    refine h t (fun ht => hqr ?_) r hr
    subst ht
    exact Option.some.inj (hr.symm.trans hrun)

/-- Of the terminals only the running one changed. -/
structure SparesTerminals (k k' : State) : Prop where
  currScheduler : k'.currScheduler = k.currScheduler
  terminal : ∀ t ≠ k.currScheduler, k'.terminal t = k.terminal t

theorem Quiet.spares (h : Quiet k k') : SparesTerminals k k' :=
  ⟨h.currScheduler, fun t _ => by rw [h.terminal]⟩

theorem SparesTerminals.trans {k'' : State} (h : SparesTerminals k k') (h' : SparesTerminals k' k'') :
    SparesTerminals k k'' :=
  ⟨h'.currScheduler.trans h.currScheduler,
    fun t ht => (h'.terminal t (h.currScheduler ▸ ht)).trans (h.terminal t ht)⟩

theorem Entered.spares {slot : Fin 6} (h : Entered k k' slot) : SparesTerminals k k' :=
  ⟨h.currScheduler, fun t ht => by rw [h.terminal, Function.update_of_ne ht]⟩

theorem Started.spares (h : Started k k') : SparesTerminals k k' := by
  rcases h with ⟨slot, he⟩ | ⟨-, hr | hf⟩
  · exact he.spares
  · exact hr.toQuiet.spares
  · exact hf.toQuiet.spares

theorem freed_spares (k : State) (q : Fin 6) : SparesTerminals k (freed k q) :=
  ⟨rfl, fun _ ht => Function.update_of_ne ht _ _⟩

theorem ReturnedTo.spares {q r : Fin 6} (h : ReturnedTo k k' q r) : SparesTerminals k k' :=
  ⟨h.currScheduler, fun t ht => by rw [h.terminal, Function.update_of_ne ht]⟩

theorem Chained.ended_spares {st : Chains} (hc : Chained k st) {q : Fin 6} (hrun : k.running = some q)
    (he : Ended k q k') : SparesTerminals k k' := by
  cases he with
  | root _ hs => exact (freed_spares k q).trans hs.spares
  | child r _ _ hr => exact hr.spares
  | orphan hchild hr => exact absurd ((hc.parent_none hrun).mpr hr) hchild

/-- Only the timer passes the turn on. -/
theorem Chained.step_spares {st : Chains} (hc : Chained k st) {e : Event}
    (h : Kernel.step img stack k e = some k') (he : e ≠ .tick) : SparesTerminals k k' := by
  obtain ⟨-, h⟩ := step_cases h
  cases h with
  | firstShell => exact absurd rfl he
  | noProcess => exact absurd rfl he
  | newShell => exact absurd rfl he
  | turn => exact absurd rfl he
  | refused command q hrun hr => exact hr.toQuiet.spares
  | entered command q slot hrun hadm hen => exact hen.spares
  | faulted command q k₁ hrun hadm hf hen =>
    have hraised : SparesTerminals k (raise k₁ q .pf) := hf.toQuiet.spares.trans ⟨rfl, fun _ _ => rfl⟩
    exact hraised.trans (((hc.faulted hf).raised q .pf).ended_spares (hf.running_raise hrun) hen)
  | halt status q hrun hen =>
    have hnote : SparesTerminals k (k.note (.ended (k.trace.born q) status)) := ⟨rfl, fun _ _ => rfl⟩
    exact hnote.trans ((hc.note _).ended_spares hrun hen)
  | exception x q hrun hen =>
    have hraised : SparesTerminals k (raise k q x) := ⟨rfl, fun _ _ => rfl⟩
    exact hraised.trans ((hc.raised q x).ended_spares hrun hen)
  | call c q hrun hk => exact hk ▸ ⟨rfl, fun _ _ => rfl⟩

theorem OwnRegisters.keep (h : OwnRegisters saved k) (hk : SparesTerminals k k') :
    OwnRegisters saved k' := by
  intro t ht q hq
  rw [hk.currScheduler] at ht
  exact h t ht q (hk.terminal t ht ▸ hq)

theorem Forest.terminals_apart {st : Chains} (h : Forest k st) {t u : Fin 3} {r : Fin 6}
    (ht : k.terminal t = some r) (hu : k.terminal u = some r) : t = u := by
  have hmem : ∀ t, k.terminal t = some r → r ∈ st t := by
    intro t ht
    obtain ⟨rest, hst, -⟩ := Support.linked_some (ht ▸ h.linked t)
    rw [hst]
    exact List.mem_cons_self
  exact h.apart t u r (hmem t ht) (hmem u hu)

theorem OwnRegisters.turn {st : Chains} (h : OwnRegisters saved k) (hc : Forest k st) {q : Fin 6}
    (hrun : k.running = some q) : ∀ t r, k.terminal t = some r →
      update saved q (some k.currScheduler) r = some t :=
  fun _ _ hr => h.save hrun (fun _ _ _ => hc.terminals_apart) hr

/-- With no interrupt in between, a step of the kernel is a run of the cut one. -/
theorem step_uninterrupted {st : Chains} (hc : Chained k st) (hown : OwnRegisters saved k) {e : Event}
    (h : step img stack k e = some k') (hend : k'.lost = false) :
    ∃ es saved', run (nestStep img stack) (Nest.alone saved k .user) es =
      some (Nest.alone saved' k' .user) ∧ OwnRegisters saved' k' := by
  have hkeep : e ≠ .tick → OwnRegisters saved k' := fun he => hown.keep (hc.step_spares h he)
  obtain ⟨hlost, h⟩ := step_by h
  cases h with
  | firstShell hrun hcs =>
    refine ⟨[.pit, .go], saved, ?_, hown.keep ((clearScreen_quiet k).spares.trans
      (startShell_started img stack _).spares)⟩
    rw [run, pit_first hlost hrun hcs, Option.bind_some, run, go_starting hlost hend]
    rfl
  | noProcess => cases hend
  | newShell q hrun hnext =>
    have hturn := hown.turn hc.toForest hrun
    have hstarted := (startShell_started img stack (nextTurn k)).spares
    refine ⟨[.pit, .go], update saved q (some k.currScheduler), ?_, fun t ht r hr => hturn t r ?_⟩
    · rw [run, pit_new hlost hrun hnext, Option.bind_some, run,
        go_starting (k := nextTurn k) hlost hend]
      rfl
    · rw [← hr]
      exact (hstarted.terminal t (hstarted.currScheduler ▸ ht)).symm
  | turn q r hrun hnext =>
    have hturn := hown.turn hc.toForest hrun
    refine ⟨[.pit], update saved q (some k.currScheduler), ?_, fun t _ i hi => hturn t i hi⟩
    rw [run, pit_turn hlost hrun hnext (hturn _ r hnext)]
    rfl
  | execute command q hrun =>
    refine ⟨[.program (.execute command)], saved, ?_, hkeep (by simp)⟩
    rw [run, alone_program _ hlost hrun (executeBy_kept img stack k q command).currScheduler rfl]
    rfl
  | halt status q hrun =>
    let k₁ := k.note (.ended (k.trace.born q) status)
    obtain ⟨es, hes⟩ := run_halt (k := k₁) hlost saved hrun hend
    refine ⟨.program (.halt status) :: es, saved, ?_, hkeep (by simp)⟩
    rw [run, alone_program (Nest.vacate k₁ q) hlost hrun rfl rfl]
    exact hes
  | exception x q hrun =>
    obtain ⟨es, hes⟩ := run_halt (k := raise k q x) hlost saved hrun hend
    refine ⟨.program (.exception x) :: .go :: es, saved, ?_, hkeep (by simp)⟩
    rw [run, alone_program (raise k q x) hlost hrun rfl rfl, Option.bind_some, run,
      go_trapped (k := raise k q x) hlost hrun]
    exact hes
  | call c q hrun =>
    refine ⟨[.program (.call c)], saved, ?_, hkeep (by simp)⟩
    rw [run, alone_program (fileCall img k q c) hlost hrun rfl rfl]
    rfl

/-- Runs of the kernel are runs of the cut one. -/
theorem runs_uninterrupted {st : Chains} (hc : Chained k st) (hown : OwnRegisters saved k)
    {es : List Event} (h : runs img stack k es = some k') (hend : k'.lost = false) :
    ∃ fs saved', run (nestStep img stack) (Nest.alone saved k .user) fs =
      some (Nest.alone saved' k' .user) := by
  induction es generalizing k st saved with
  | nil =>
    obtain rfl : k = k' := by simpa [run] using h
    exact ⟨[], saved, rfl⟩
  | cons e es ih =>
    obtain ⟨m, hm, hr⟩ := run_cons_eq_some.mp h
    -- a kernel that is lost stays so, and takes no further step
    have hmid : m.lost = false := by
      cases es with
      | nil =>
        obtain rfl : m = k' := by simpa [run] using hr
        exact hend
      | cons f es =>
        obtain ⟨_, hf, -⟩ := run_cons_eq_some.mp hr
        exact (step_by hf).1
    obtain ⟨fs, saved₁, hfs, hown₁⟩ := step_uninterrupted hc hown hm hmid
    obtain ⟨st₁, hc₁⟩ := hc.step hm
    obtain ⟨gs, saved₂, hgs⟩ := ih hc₁ hown₁ hr
    refine ⟨fs ++ gs, saved₂, ?_⟩
    rw [run_append, hfs]
    exact hgs

end Uninterrupted

end Ece391.Kernel
