import Ece391.Kernel.Tables
import Ece391.Support.Scripts
import Ece391.Syscall.Shown
import Ece391.Syscall.Streaming

/-! A process as its own program sees it: a row of system calls, between which other
processes do to the devices whatever they like. Its descriptors are its own, and what it
puts on its terminal is what its calls print. -/

namespace Ece391.User

open Function (update)
open Lib FileSys Syscall Kernel Support.Runs Support.Scripts

/-! ### Requests -/

/-- A system call with what the program hands over. A text is cut off where the call cannot
see more of it, and what a `read` finds in the keyboard buffer is not the program's. -/
inductive Request
  | open (filename : Option CString)
  | close (fd : ℤ)
  | read (fd : ℤ) (buf : Bool) (nbytes : ℤ)
  | write (fd : ℤ) (buf : Option (List UInt8)) (nbytes : ℤ)
  deriving DecidableEq

def requestOf : Call → Request
  | .open filename => .open filename
  | .close fd => .close fd
  | .read fd buf nbytes _ => .read fd buf nbytes
  | .write fd buf nbytes => .write fd (buf.map fun mem => (List.range nbytes.toNat).map mem) nbytes

def keysOf : Call → ℕ → UInt8
  | .read _ _ _ keyBuf => keyBuf
  | _ => fun _ => 0

/-- The call behind a request, with the keyboard buffer that a `read` finds. -/
def Request.toCall (keyBuf : ℕ → UInt8) : Request → Call
  | .open filename => .open filename
  | .close fd => .close fd
  | .read fd buf nbytes => .read fd buf nbytes keyBuf
  | .write fd buf nbytes => .write fd (buf.map fun bytes i => bytes.getD i 0) nbytes

/-- The bytes behind the count. -/
theorem map_range_congr {mem mem' : ℕ → UInt8} {n : ℕ} (h : ∀ i < n, mem i = mem' i) :
    (List.range n).map mem = (List.range n).map mem' :=
  List.map_congr_left fun i hi => h i (List.mem_range.mp hi)

theorem writeOp_congr (cs : Fin 3) (dev : Devices) (entry : FileArray) {mem mem' : ℕ → UInt8}
    {n : ℤ} (h : ∀ i < n.toNat, mem i = mem' i) :
    writeOp cs dev entry (some mem) n = writeOp cs dev entry (some mem') n := by
  simp only [writeOp]
  cases entry.pointer with
  | stdoutFops => simp only [terminalWrite, map_range_congr h]
  | rtcFops =>
    by_cases hn : n = 4
    · subst hn
      have hword : word32 mem = word32 mem' := by
        simp only [word32, h 0 (by decide), h 1 (by decide), h 2 (by decide), h 3 (by decide)]
      simp only [rtcWrite, hword]
    · simp only [rtcWrite, if_pos hn]
  | _ => rfl

theorem getD_map_range (mem : ℕ → UInt8) {n i : ℕ} (h : i < n) :
    ((List.range n).map mem).getD i 0 = mem i := by
  rw [List.getD_eq_getElem _ _ (by simpa using h), List.getElem_map, List.getElem_range]

/-- A call sees no more than its request. -/
theorem call_toCall (img : Image) (cs : Fin 3) (p : Proc) (c : Call) :
    call img cs p ((requestOf c).toCall (keysOf c)) = call img cs p c ∧
      shown img p ((requestOf c).toCall (keysOf c)) = shown img p c := by
  cases c with
  | write fd buf n =>
    cases buf with
    | none => exact ⟨rfl, rfl⟩
    | some mem =>
      have hmem : ∀ i < n.toNat, ((List.range n.toNat).map mem).getD i 0 = mem i := fun i hi =>
        getD_map_range mem hi
      constructor
      · simp only [requestOf, Request.toCall, Option.map_some, call, Syscall.write,
          Option.isNone_some, writeOp_congr cs p.dev _ hmem]
      · simp only [requestOf, Request.toCall, Option.map_some, shown, map_range_congr hmem]
  | _ => exact ⟨rfl, rfl⟩

/-! ### Programs -/

/-- What a system call gives back to the program. -/
structure Reply where
  ret : ℤ
  stored : List UInt8

/-- A user program, by the system calls it makes on its descriptors. -/
abbrev Program := Script Request Reply

/-- What a program meets at a call: what others have done to the devices since the last one,
whose turn it is, and what the keyboard buffer holds. -/
structure Moment where
  others : Devices → Devices
  turn : Fin 3
  keyBuf : ℕ → UInt8

/-- A call of a program that runs alone. -/
def serve (img : Image) (m : Moment) (p : Proc) (r : Request) : Served Reply UInt8 Proc :=
  let p := { p with dev := m.others p.dev }
  let out := call img m.turn p (r.toCall m.keyBuf)
  ⟨⟨out.ret, out.stored⟩, shown img p (r.toCall m.keyBuf), out.proc⟩

/-- The process `p` among the others. -/
def process (tablePage : ℕ) (img : Image) (stack : ℕ → Stack) (p : Fin 6) :
    Client State UserEvent Request Reply UInt8 where
  step := userStep tablePage img stack
  own k e := if k.running = some p then (fileCallOf e).map requestOf else none
  reply k e :=
    match fileCallOf e with
    | some c =>
      let out := call img k.currScheduler ⟨(k.pcbs p).fileDescriptor, k.dev⟩ c
      ⟨out.ret, out.stored⟩
    | none => ⟨0, []⟩
  shown k e :=
    match fileCallOf e with
    | some c => shown img ⟨(k.pcbs p).fileDescriptor, k.dev⟩ c
    | none => []

/-- The others leave the listing position alone, if `quiet`. -/
def Moment.Quietly (quiet : Prop) (m : Moment) : Prop :=
  quiet → ∀ dev, (m.others dev).directoryIndex = dev.directoryIndex

/-- The program of `p` goes on, and no other program reads from a directory, if `quiet`. -/
def GoesOn (quiet : Prop) (tablePage : ℕ) (img : Image) (stack : ℕ → Stack) (p : Fin 6) (k : State)
    (e : UserEvent) : Prop :=
  ¬ EndsUser tablePage img stack p k e ∧ (quiet → k.running ≠ some p → readsDirectory k e = false)

instance (quiet : Prop) [Decidable quiet] (tablePage : ℕ) (img : Image) (stack : ℕ → Stack)
    (p : Fin 6) (k : State) (e : UserEvent) : Decidable (GoesOn quiet tablePage img stack p k e) :=
  inferInstanceAs (Decidable (_ ∧ (_ → _ → _)))

/-- What a living process sees of the kernel: its table, and devices that others may have
changed since. -/
structure View (quiet : Prop) (tablePage : ℕ) (p : Fin 6) (k : State) (v : Proc) : Prop where
  walled : Walled tablePage k
  live : k.pid p = occupied
  fds : v.fds = (k.pcbs p).fileDescriptor
  directoryIndex : quiet → v.dev.directoryIndex = k.dev.directoryIndex

section Process
variable {quiet : Prop} {tablePage : ℕ} {img : Image} {stack : ℕ → Stack} {p : Fin 6}
  {k k' : State} {e : UserEvent} {v : Proc}

theorem View.lives (h : View quiet tablePage p k v)
    (hstep : userStep tablePage img stack k e = some k') (hend : ¬ EndsUser tablePage img stack p k e) :
    Walled tablePage k' ∧ k'.pid p = occupied :=
  ⟨⟨h.walled.guarded.step hstep, h.walled.housed.userStep hstep⟩,
    (userStep_owns h.walled hstep hend h.live).1⟩

theorem View.other (h : View quiet tablePage p k v)
    (hstep : userStep tablePage img stack k e = some k') (hgo : GoesOn quiet tablePage img stack p k e)
    (hown : (process tablePage img stack p).own k e = none) : View quiet tablePage p k' v := by
  obtain ⟨hwalled, hlive⟩ := h.lives hstep hgo.1
  suffices hleft : (k'.pcbs p).fileDescriptor = (k.pcbs p).fileDescriptor ∧
      (quiet → k'.dev.directoryIndex = k.dev.directoryIndex) from
    ⟨hwalled, hlive, h.fds.trans hleft.1.symm, fun hq => (h.directoryIndex hq).trans (hleft.2 hq).symm⟩
  cases hcall : fileCallOf e with
  | none =>
    have hleaves := userStep_leaves h.walled h.live hstep hgo.1 hcall
    exact ⟨hleaves.fds, fun _ => hleaves.directoryIndex⟩
  | some c =>
    obtain ⟨q, hrun, hpcbs, hdev⟩ := userStep_call hstep hcall
    have hpq : p ≠ q := by
      rintro rfl
      simp [process, hrun, hcall] at hown
    rw [hpcbs, hdev]
    refine ⟨fileCall_leaves img hpq, fun hq => ?_⟩
    have hdir : dirReadOn (k.pcbs q).fileDescriptor c = none := by
      have hsilent := hgo.2 hq (by rw [hrun]; exact fun heq => hpq (Option.some.inj heq).symm)
      simpa [readsDirectory, hrun, hcall] using hsilent
    exact call_directoryIndex (p := ⟨(k.pcbs q).fileDescriptor, k.dev⟩) hdir

theorem View.own (h : View quiet tablePage p k v)
    (hstep : userStep tablePage img stack k e = some k') (hgo : GoesOn quiet tablePage img stack p k e)
    {r : Request} (hown : (process tablePage img stack p).own k e = some r) :
    ∃ m v', m.Quietly quiet ∧
      serve img m v r = ⟨(process tablePage img stack p).reply k e,
        (process tablePage img stack p).shown k e, v'⟩ ∧ View quiet tablePage p k' v' := by
  obtain ⟨hwalled, hlive⟩ := h.lives hstep hgo.1
  obtain ⟨hrun, c, hcall, rfl⟩ : k.running = some p ∧ ∃ c, fileCallOf e = some c ∧ requestOf c = r := by
    simpa [process] using hown
  obtain ⟨q, hrun', hpcbs, hdev⟩ := userStep_call hstep hcall
  obtain rfl : p = q := Option.some.inj (hrun.symm.trans hrun')
  -- the others have made of the devices what the call finds
  set others : Devices → Devices := fun dev =>
    { k.dev with
      directoryIndex := dev.directoryIndex + (k.dev.directoryIndex - v.dev.directoryIndex) }
  set found : Proc := ⟨(k.pcbs p).fileDescriptor, k.dev⟩ with hfound
  have hmeets : { v with dev := others v.dev } = found := by
    simp only [others, hfound, h.fds, add_sub_cancel]
  refine ⟨⟨others, k.currScheduler, keysOf c⟩, (call img k.currScheduler found c).proc,
    fun hq dev => ?_, ?_, hwalled, hlive, ?_, fun _ => by rw [hdev]; rfl⟩
  · simp only [others, h.directoryIndex hq, sub_self, add_zero]
  · obtain ⟨hsame, hshown⟩ := call_toCall img k.currScheduler found c
    simp only [serve, hmeets, hsame, hshown, process, hcall]
    rfl
  · rw [hpcbs]
    simp only [fileCall, State.modifyPcb, Function.update_self]
    rfl

/-- Among the others a program runs as it does alone: what the other processes and the
terminals do between two of its calls comes down to a change of the devices. -/
theorem process_sees (quiet : Prop) (tablePage : ℕ) (img : Image) (stack : ℕ → Stack) (p : Fin 6) :
    (process tablePage img stack p).Sees (serve img) (Moment.Quietly quiet)
      (GoesOn quiet tablePage img stack p) (View quiet tablePage p) where
  other hgo hstep hown h := h.other hstep hgo hown
  own hgo hstep hown h := h.own hstep hgo hown

/-- What a program does alone, whatever moves the others make, it does from any reachable
state on among the other processes. -/
theorem session_outcome {k₀ : State} {es fs : List UserEvent} (hb : State.Boot k₀)
    (hr : run (userStep tablePage img stack) (pagingInit tablePage k₀) es = some k)
    (hlive : k.pid p = occupied) (hr' : run (userStep tablePage img stack) k fs = some k')
    (hgo : Along (userStep tablePage img stack) (GoesOn quiet tablePage img stack p) k fs)
    {prog left : Program} (hleft : (process tablePage img stack p).leftover prog k fs = some left)
    (post : Outcome UInt8 Proc → Prop)
    (halone : ∀ w : ℕ → Moment, (∀ n, (w n).Quietly quiet) →
      ∃ o, prog.run (serve img) w ⟨(k.pcbs p).fileDescriptor, k.dev⟩ = some o ∧ post o) :
    (∃ o, post o ∧ (process tablePage img stack p).shownAlong k fs <+: o.shown) ∧ left ≠ .spin ∧
      ∀ status, left = .exit status → ∃ v', View quiet tablePage p k' v' ∧
        post ⟨status, (process tablePage img stack p).shownAlong k fs, v'⟩ := by
  have hview : View quiet tablePage p k ⟨(k.pcbs p).fileDescriptor, k.dev⟩ :=
    ⟨walled_of_run hb hr, hlive, rfl, fun _ => rfl⟩
  have hm : Moment.Quietly quiet ⟨id, 0, fun _ => 0⟩ := fun _ _ => rfl
  exact (process_sees quiet tablePage img stack p).outcome hgo hr' hview hleft hm post halone

/-- What a program that shows its memory keeps to alone, it keeps to among the other processes. -/
theorem session_always {k₀ : State} {es fs : List UserEvent} (hb : State.Boot k₀)
    (hr : run (userStep tablePage img stack) (pagingInit tablePage k₀) es = some k)
    (hlive : k.pid p = occupied) (hr' : run (userStep tablePage img stack) k fs = some k')
    (hgo : Along (userStep tablePage img stack) (GoesOn quiet tablePage img stack p) k fs)
    {A : Type} {prog left : Script (A × Request) Reply}
    (hleft : (process tablePage img stack p).remaining prog k fs = some left) {seen : A → Prop}
    {ended : ℤ → Prop} (halone : prog.Always (serve img) (Moment.Quietly quiet) seen ended
      ⟨(k.pcbs p).fileDescriptor, k.dev⟩) :
    left ≠ .spin ∧ (∀ status, left = .exit status → ended status) ∧
      ∀ a r next, left = .call (a, r) next → seen a := by
  have hview : View quiet tablePage p k ⟨(k.pcbs p).fileDescriptor, k.dev⟩ :=
    ⟨walled_of_run hb hr, hlive, rfl, fun _ => rfl⟩
  obtain ⟨v, -, hleft'⟩ :=
    (process_sees quiet tablePage img stack p).always hgo hr' hview hleft halone
  refine ⟨?_, ?_, ?_⟩
  · rintro rfl
    exact hleft'
  · rintro status rfl
    exact hleft'
  · rintro a r next rfl
    exact hleft'.1

end Process

end Ece391.User
