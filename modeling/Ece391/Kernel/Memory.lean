import Ece391.Kernel.Arguments
import Ece391.Kernel.VideoMap

/-! The memory of user programs. User code reaches physical memory only through entries
that are marked for it, on both levels of the page tables; an access that is not allowed
is a page fault. The kernel reaches it on behalf of a program when a call stores into a
buffer of the caller, and it checks such a buffer for NULL only. -/

namespace Ece391.Kernel

open Function (update)
open Lib FileSys Syscall Devices Support.Runs

/-- User code may read and write what lies behind the entry. -/
def AllowsUser (entry : ℕ) : Prop := entry / 0x02 % 2 = 1 ∧ entry / 0x04 % 2 = 1

instance : DecidablePred AllowsUser := fun _ => inferInstanceAs (Decidable (_ ∧ _))

/-- The physical address that user code reaches through a virtual one. -/
def userTranslate (tablePage : ℕ) (k : State) (addr : ℕ) : Option ℕ :=
  let pde := k.pageDirectory (addr / mb4)
  let pte := k.pageTableVideo (addr / 0x1000 % 1024)
  if AllowsUser pde ∧ (Large pde ∨ AllowsUser pte) then translate tablePage k addr else none

/-- Where the frames of the processes begin, and the frame of a pid. -/
abbrev userFrames : ℕ := 0x800000

def frame (p : Fin 6) : ℕ := userFrames + p * mb4

/-- The frame a physical address lies in, and where in the frame. -/
def frameOf (phys : ℕ) : Option (Fin 6) :=
  if h : userFrames ≤ phys ∧ phys < userFrames + 6 * mb4 then
    some ⟨(phys - userFrames) / mb4, Nat.div_lt_of_lt_mul (by omega)⟩
  else none

def frameOffset (phys : ℕ) : ℕ := (phys - userFrames) % mb4

/-- The address is on one of the four pages of the screens. -/
def OnScreens (phys : ℕ) : Prop := videoMem ≤ phys ∧ phys < videoMem + 4 * 0x1000

instance : DecidablePred OnScreens := fun _ => inferInstanceAs (Decidable (_ ∧ _))

/-- A byte of physical memory, as far as it is modelled. -/
def loadPhys (k : State) (phys : ℕ) : Option UInt8 :=
  match frameOf phys with
  | some q => some (k.userPage q (frameOffset phys))
  | none => if OnScreens phys then some (k.dev.display.vram phys) else none

/-- A store to physical memory. Outside the frames and the screens lies the kernel. -/
def storePhys (k : State) (phys : ℕ) (byte : UInt8) : State :=
  match frameOf phys with
  | some q =>
    let page := update (k.userPage q) (frameOffset phys) byte
    { k with userPage := update k.userPage q page }
  | none =>
    if OnScreens phys then
      let display := { k.dev.display with vram := update k.dev.display.vram phys byte }
      { k with dev := { k.dev with display := display } }
    else { k with lost := true }

/-- What user code reads at an address, if it can. -/
def userLoad (tablePage : ℕ) (k : State) (addr : ℕ) : Option UInt8 :=
  (userTranslate tablePage k addr).bind (loadPhys k)

/-- A store instruction of the program of `p`. -/
def userStore (tablePage : ℕ) (img : Image) (stack : ℕ → Stack) (k : State) (p : Fin 6)
    (addr : ℕ) (byte : UInt8) : State :=
  match userTranslate tablePage k addr with
  | none => trap img stack k p .pf
  | some phys => storePhys k phys byte

/-- Consecutive bytes put over a page. -/
def splice (page : ℕ → UInt8) (start : ℕ) (bytes : List UInt8) : ℕ → UInt8 :=
  fun o => if start ≤ o ∧ o < start + bytes.length then bytes.getD (o - start) 0 else page o

/-- The bytes from an address on lie in the page of the running program. -/
def FitsPage (addr len : ℕ) : Prop := lowerboundVid ≤ addr ∧ addr + len ≤ upperboundVid

instance (addr len : ℕ) : Decidable (FitsPage addr len) := inferInstanceAs (Decidable (_ ∧ _))

/-- The kernel stores what a call delivers into the buffer at `addr`. A buffer that does
not lie in the caller's page makes it store somewhere else, or fault on the way. -/
def deliver (k : State) (p : Fin 6) (addr : ℕ) (bytes : List UInt8) : State :=
  if bytes = [] then k
  else if FitsPage addr bytes.length then
    { k with userPage := update k.userPage p (splice (k.userPage p) (addr - lowerboundVid) bytes) }
  else { k with lost := true }

/-- What `read` stores for the process `p`, and what `getargs` does. -/
def readCall (fd : ℤ) (addr : ℕ) (nbytes : ℤ) (keyBuf : ℕ → UInt8) : Call :=
  .read fd (decide (addr ≠ 0)) nbytes keyBuf

def readBytes (img : Image) (k : State) (p : Fin 6) (fd : ℤ) (addr : ℕ) (nbytes : ℤ)
    (keyBuf : ℕ → UInt8) : List UInt8 :=
  (call img k.currScheduler ⟨(k.pcbs p).fileDescriptor, k.dev⟩ (readCall fd addr nbytes keyBuf)).stored

def getargsBytes (k : State) (p : Fin 6) (addr : ℕ) (nbytes : ℤ) : List UInt8 :=
  let buf := if addr = 0 then none else some fun i => k.userPage p (addr - lowerboundVid + i)
  ((getargs k buf nbytes).map (·.stored)).getD []

/-- An event of the machine: one of the kernel and the tables, a store of the running
program, or a call of its that stores into a buffer. -/
inductive UserEvent
  | video (e : VideoEvent)
  | store (addr : UInt32) (byte : UInt8)
  | readTo (fd : ℤ) (addr : ℕ) (nbytes : ℤ) (keyBuf : ℕ → UInt8)
  | getargsTo (addr : ℕ) (nbytes : ℤ)

def userStep (tablePage : ℕ) (img : Image) (stack : ℕ → Stack) (k : State) :
    UserEvent → Option State
  | .video e => videoStep tablePage img stack k e
  | .store addr byte =>
    if k.lost then none
    else k.running.map fun p => userStore tablePage img stack k p addr.toNat byte
  | .readTo fd addr nbytes keyBuf =>
    if k.lost then none
    else k.running.map fun p =>
      deliver (fileCall img k p (readCall fd addr nbytes keyBuf)) p addr
        (readBytes img k p fd addr nbytes keyBuf)
  | .getargsTo addr nbytes =>
    if k.lost then none
    else k.running.map fun p => deliver k p addr (getargsBytes k p addr nbytes)

/-- What an event can do, by the operation behind it. -/
inductive UserStepBy (tablePage : ℕ) (img : Image) (stack : ℕ → Stack) (k k' : State) :
    UserEvent → Prop
  | video (e : VideoEvent) (h : videoStep tablePage img stack k e = some k') :
    UserStepBy tablePage img stack k k' (.video e)
  | fault (p : Fin 6) (addr : UInt32) (byte : UInt8) (hrun : k.running = some p)
    (haddr : userTranslate tablePage k addr.toNat = none) (hk : k' = trap img stack k p .pf) :
    UserStepBy tablePage img stack k k' (.store addr byte)
  | stored (p : Fin 6) (addr : UInt32) (byte : UInt8) (phys : ℕ) (hrun : k.running = some p)
    (haddr : userTranslate tablePage k addr.toNat = some phys) (hk : k' = storePhys k phys byte) :
    UserStepBy tablePage img stack k k' (.store addr byte)
  | readTo (p : Fin 6) (fd : ℤ) (addr : ℕ) (nbytes : ℤ) (keyBuf : ℕ → UInt8)
    (hrun : k.running = some p)
    (hk : k' = deliver (fileCall img k p (readCall fd addr nbytes keyBuf)) p addr
      (readBytes img k p fd addr nbytes keyBuf)) :
    UserStepBy tablePage img stack k k' (.readTo fd addr nbytes keyBuf)
  | getargsTo (p : Fin 6) (addr : ℕ) (nbytes : ℤ) (hrun : k.running = some p)
    (hk : k' = deliver k p addr (getargsBytes k p addr nbytes)) :
    UserStepBy tablePage img stack k k' (.getargsTo addr nbytes)

theorem userStep_by {tablePage : ℕ} {img : Image} {stack : ℕ → Stack} {k k' : State}
    {e : UserEvent} (h : userStep tablePage img stack k e = some k') :
    UserStepBy tablePage img stack k k' e := by
  cases e with
  | video e => exact .video e h
  | store addr byte =>
    simp only [userStep] at h
    split_ifs at h
    obtain ⟨p, hrun, rfl⟩ := Option.map_eq_some_iff.mp h
    cases haddr : userTranslate tablePage k addr.toNat with
    | none => exact .fault p addr byte hrun haddr (by simp only [userStore, haddr])
    | some phys => exact .stored p addr byte phys hrun haddr (by simp only [userStore, haddr])
  | readTo fd addr nbytes keyBuf =>
    simp only [userStep] at h
    split_ifs at h
    obtain ⟨p, hrun, hk⟩ := Option.map_eq_some_iff.mp h
    exact .readTo p fd addr nbytes keyBuf hrun hk.symm
  | getargsTo addr nbytes =>
    simp only [userStep] at h
    split_ifs at h
    obtain ⟨p, hrun, hk⟩ := Option.map_eq_some_iff.mp h
    exact .getargsTo p addr nbytes hrun hk.symm

/-! ### What leaves the processes alone -/

/-- The records of the processes and the placement are the same. -/
structure SameProcesses (k k' : State) : Prop where
  terminal : k'.terminal = k.terminal
  pid : k'.pid = k.pid
  links : ∀ q, (k'.pcbs q).links = (k.pcbs q).links
  processCounter : k'.processCounter = k.processCounter
  log : NeverFull k' → NeverFull k
  currScheduler : k'.currScheduler = k.currScheduler
  placement : placement k' = placement k

theorem storePhys_same (k : State) (phys : ℕ) (byte : UInt8) :
    SameProcesses k (storePhys k phys byte) ∧ SameTables k (storePhys k phys byte) := by
  unfold storePhys
  cases frameOf phys with
  | some q =>
    exact ⟨⟨rfl, rfl, fun _ => rfl, rfl, id, rfl, rfl⟩, ⟨rfl, fun _ _ => rfl, rfl, rfl⟩⟩
  | none =>
    dsimp only
    split_ifs <;>
      exact ⟨⟨rfl, rfl, fun _ => rfl, rfl, id, rfl, rfl⟩, ⟨rfl, fun _ _ => rfl, rfl, rfl⟩⟩

theorem deliver_same (k : State) (p : Fin 6) (addr : ℕ) (bytes : List UInt8) :
    SameProcesses k (deliver k p addr bytes) ∧ SameTables k (deliver k p addr bytes) := by
  unfold deliver
  split_ifs <;>
    exact ⟨⟨rfl, rfl, fun _ => rfl, rfl, id, rfl, rfl⟩, ⟨rfl, fun _ _ => rfl, rfl, rfl⟩⟩

theorem openWindow_same (tablePage : ℕ) (k : State) : SameProcesses k (openWindow tablePage k) where
  terminal := rfl
  pid := rfl
  links _ := rfl
  processCounter := rfl
  log := id
  currScheduler := rfl
  placement := Prod.ext (openWindow_directory tablePage k 32) rfl

theorem switchTerminal_same (k : State) (newTerminal : Fin 3) :
    SameProcesses k (switchTerminal k newTerminal) :=
  ⟨rfl, rfl, fun _ => rfl, rfl, id, rfl, rfl⟩

theorem Housed.same {k k' : State} (h : Housed k) (hlost : k.lost = false)
    (hs : SameProcesses k k') : Housed k' := by
  obtain ⟨⟨st, hc⟩, hr⟩ := h
  refine ⟨⟨st, hc.congr hs.terminal hs.pid hs.links hs.processCounter hs.log⟩, fun _ p hp => ?_⟩
  have hrun : k.running = some p := by
    rw [← hp, State.running, State.running, hs.terminal, hs.currScheduler]
  rw [hs.placement, hr hlost p hrun, (Pcb.links_eq (hs.links p)).1]

theorem Housed.trap {k : State} (h : Housed k) (hlost : k.lost = false) {p : Fin 6}
    (hrun : k.running = some p) (img : Image) (stack : ℕ → Stack) (e : Exception) :
    Housed (trap img stack k p e) := by
  have hstep : Kernel.step img stack k (.exception e) = some (Kernel.trap img stack k p e) := by
    simp [Kernel.step, hlost, hrun]
  exact h.step hstep

theorem Housed.fileCall {k : State} (h : Housed k) (hlost : k.lost = false) {p : Fin 6}
    (hrun : k.running = some p) (img : Image) (c : Call) : Housed (fileCall img k p c) := by
  have hstep : Kernel.step img (fun _ => Stack.zero) k (.call c) = some (Kernel.fileCall img k p c) := by
    simp [Kernel.step, hlost, hrun]
  exact h.step hstep

theorem Housed.vidmap {k : State} (h : Housed k) (hlost : k.lost = false) {p : Fin 6}
    (hrun : k.running = some p) (tablePage : ℕ) (img : Image) (stack : ℕ → Stack)
    (screenStart : ℕ) : Housed (vidmap tablePage img stack k p screenStart).1 := by
  have hopen := h.same hlost (openWindow_same tablePage k)
  simp only [Kernel.vidmap]
  split_ifs
  · exact hopen.same hlost ⟨rfl, rfl, fun _ => rfl, rfl, id, rfl, rfl⟩
  · exact hopen.trap hlost hrun img stack .pf
  · exact h

theorem Housed.videoStep {tablePage : ℕ} {img : Image} {stack : ℕ → Stack} {k k' : State}
    {e : VideoEvent} (h : Housed k) (hstep : videoStep tablePage img stack k e = some k') :
    Housed k' := by
  cases e with
  | kernel e => exact h.step hstep
  | switch n =>
    simp only [Kernel.videoStep] at hstep
    split_ifs at hstep with hlost
    obtain rfl := Option.some.inj hstep
    exact h.same (by simpa using hlost) (switchTerminal_same k n)
  | vidmap screenStart =>
    simp only [Kernel.videoStep] at hstep
    split_ifs at hstep with hlost
    obtain ⟨p, hrun, rfl⟩ := Option.map_eq_some_iff.mp hstep
    exact h.vidmap (by simpa using hlost) hrun tablePage img stack screenStart

theorem userStep_lost {tablePage : ℕ} {img : Image} {stack : ℕ → Stack} {k k' : State}
    {e : UserEvent} (h : userStep tablePage img stack k e = some k') : k.lost = false := by
  rw [← Bool.not_eq_true]
  intro hlost
  cases e with
  | video e => cases e <;> simp [userStep, Kernel.videoStep, Kernel.step, hlost] at h
  | _ => simp [userStep, hlost] at h

theorem Housed.userStep {tablePage : ℕ} {img : Image} {stack : ℕ → Stack} {k k' : State}
    {e : UserEvent} (h : Housed k) (hstep : userStep tablePage img stack k e = some k') :
    Housed k' := by
  have hlost := userStep_lost hstep
  cases userStep_by hstep with
  | video e hs => exact h.videoStep hs
  | fault p addr byte hrun _ hk => exact hk ▸ h.trap hlost hrun img stack .pf
  | stored p addr byte phys hrun _ hk => exact hk ▸ h.same hlost (storePhys_same k phys byte).1
  | readTo p fd addr nbytes keyBuf hrun hk =>
    exact hk ▸ (h.fileCall hlost hrun img _).same hlost (deliver_same _ p addr _).1
  | getargsTo p addr nbytes hrun hk => exact hk ▸ h.same hlost (deliver_same k p addr _).1

end Ece391.Kernel
