import Ece391.Kernel.Residence

/-! A child that runs to its end leaves its parent as it was. `halt` undoes `execute`
from the fields `parent_pid` and `parent_pcb` of the child, not from a saved copy, so
the undoing rests on what the records say in every reachable state. The child may
start processes of its own, to any depth, as long as each of them ends before it does. -/

namespace Ece391.Kernel

open Function (update)
open Lib FileSys Syscall Support.Runs

/-- All of a PCB but the frame that `execute` saves in it. -/
def Pcb.kept (pcb : Pcb) : Pcb := { pcb with haltFrame := 0 }

/-- What the running process does on its own: calls on its descriptors, commands that
`execute` refuses, and commands whose process ends again. -/
inductive Bracketed (img : Image) (stack : ℕ → Stack) : State → List Event → State → Prop
  | done (k : State) : Bracketed img stack k [] k
  | call {k k₁ k' : State} {es : List Event} (c : Call) (hs : step img stack k (.call c) = some k₁)
    (rest : Bracketed img stack k₁ es k') : Bracketed img stack k (.call c :: es) k'
  | refused {k k₁ k' : State} {es : List Event} (command : Option CString)
    (hadm : ¬ Admitted img stack k command) (hs : step img stack k (.execute command) = some k₁)
    (rest : Bracketed img stack k₁ es k') : Bracketed img stack k (.execute command :: es) k'
  | nested {k k₁ k₂ k₃ k' : State} {bs es : List Event} (command : Option CString) (status : UInt8)
    (hadm : Admitted img stack k command) (hslot : findPid k.pid ≠ none)
    (hs : step img stack k (.execute command) = some k₁) (body : Bracketed img stack k₁ bs k₂)
    (hh : step img stack k₂ (.halt status) = some k₃) (rest : Bracketed img stack k₃ es k') :
    Bracketed img stack k (.execute command :: (bs ++ .halt status :: es)) k'

/-- The records of the processes that run below are untouched. -/
structure Undisturbed (k k' : State) : Prop where
  terminal : k'.terminal = k.terminal
  currScheduler : k'.currScheduler = k.currScheduler
  pid : k'.pid = k.pid
  counter : k'.processCounter = k.processCounter
  placement : placement k' = placement k

/-- A whole bracket: the PCBs in use are as they were too. -/
structure Restored (k k' : State) : Prop extends Undisturbed k k' where
  pcbs : ∀ p : Fin 6, k.pid p = occupied → (k'.pcbs p).kept = (k.pcbs p).kept

/-- A part of what the process `c` does: its own descriptors may have changed. -/
structure Within (c : Fin 6) (k k' : State) : Prop extends Undisturbed k k' where
  own : (k'.pcbs c).links = (k.pcbs c).links ∧ (k'.pcbs c).argument = (k.pcbs c).argument
  others : ∀ p : Fin 6, p ≠ c → k.pid p = occupied → (k'.pcbs p).kept = (k.pcbs p).kept

theorem Undisturbed.trans {k₁ k₂ k₃ : State} (h : Undisturbed k₁ k₂) (h' : Undisturbed k₂ k₃) :
    Undisturbed k₁ k₃ :=
  ⟨h'.terminal.trans h.terminal, h'.currScheduler.trans h.currScheduler, h'.pid.trans h.pid,
    h'.counter.trans h.counter, h'.placement.trans h.placement⟩

theorem Undisturbed.running {k k' : State} (h : Undisturbed k k') : k'.running = k.running := by
  rw [State.running, State.running, h.terminal, h.currScheduler]

theorem Within.refl (c : Fin 6) (k : State) : Within c k k :=
  ⟨⟨rfl, rfl, rfl, rfl, rfl⟩, ⟨rfl, rfl⟩, fun _ _ _ => rfl⟩

theorem Within.trans {c : Fin 6} {k₁ k₂ k₃ : State} (h : Within c k₁ k₂) (h' : Within c k₂ k₃) :
    Within c k₁ k₃ := by
  refine ⟨h.toUndisturbed.trans h'.toUndisturbed,
    ⟨h'.own.1.trans h.own.1, h'.own.2.trans h.own.2⟩, fun p hp hocc => ?_⟩
  rw [h'.others p hp (by rw [h.pid, hocc]), h.others p hp hocc]

theorem Pcb.kept_eq {a b : Pcb} (h : a.kept = b.kept) : a.links = b.links ∧
    a.argument = b.argument ∧ a.fileDescriptor = b.fileDescriptor := by
  simpa [Pcb.kept, Pcb.links, and_assoc, and_left_comm, and_comm] using h

theorem Restored.within {k k' : State} (h : Restored k k') {c : Fin 6} (hc : k.pid c = occupied) :
    Within c k k' := by
  obtain ⟨hlinks, harg, -⟩ := Pcb.kept_eq (h.pcbs c hc)
  exact ⟨h.toUndisturbed, ⟨hlinks, harg⟩, fun p _ => h.pcbs p⟩

/-! ### The steps of a bracket -/

section Steps
variable {img : Image} {stack : ℕ → Stack} {k k' : State} {c : Fin 6}

theorem enter_other_pcb (stack : Stack) (act : ℕ) (slot : Fin 6) (d : Dentry) (arg : List UInt8)
    {p : Fin 6} (hp : p ≠ slot) :
    ((enter img stack k act slot d arg).pcbs p).kept = (k.pcbs p).kept := by
  simp only [enter]
  split_ifs
  · exact congrArg Pcb.kept (initPcb_other k arg hp)
  · have hsave := saveFrame_proj Pcb.kept (fun _ _ => rfl) (initPcb k slot arg) k.running act p
    rw [initPcb_other k arg hp] at hsave
    exact hsave

/-- A command that is admitted while a pid is vacant is entered in its slot. -/
theorem execute_of_admitted {command : Option CString} (hadm : Admitted img stack k command)
    {slot : Fin 6} (hfind : findPid k.pid = some slot) :
    ∃ d arg, execute img stack k command =
      (enter img (stack k.trace.activations) (claimPid (beginCall k) (some slot))
        k.trace.activations slot d arg, .entered) := by
  have hfind' : findPid (beginCall k).pid = some slot := hfind
  have hadm' : (admission img (stack k.trace.activations) (beginCall k) command).accepts = true := hadm
  simp only [execute]
  cases hcheck : admission img (stack k.trace.activations) (beginCall k) command with
  | refused message =>
    rw [hcheck] at hadm'
    cases hadm'
  | admitted d arg =>
    rw [hfind']
    exact ⟨d, arg, rfl⟩

theorem execute_of_not_admitted {command : Option CString} (hadm : ¬ Admitted img stack k command) :
    ∃ message, execute img stack k command =
      (refuse (beginCall k) k.trace.activations message, .returned) := by
  have hadm' : ¬ (admission img (stack k.trace.activations) (beginCall k) command).accepts = true :=
    hadm
  simp only [execute]
  cases hcheck : admission img (stack k.trace.activations) (beginCall k) command with
  | refused message => exact ⟨message, rfl⟩
  | admitted d arg =>
    rw [hcheck] at hadm'
    exact absurd rfl hadm'

theorem step_entered {command : Option CString} (hadm : Admitted img stack k command)
    (hslot : findPid k.pid ≠ none) (hs : step img stack k (.execute command) = some k') :
    ∃ slot, Entered k k' slot ∧ ∀ p ≠ slot, (k'.pcbs p).kept = (k.pcbs p).kept := by
  obtain ⟨slot, hfind⟩ := Option.ne_none_iff_exists'.mp hslot
  obtain ⟨d, arg, hexec⟩ := execute_of_admitted hadm hfind
  obtain ⟨-, hcase⟩ := step_by hs
  cases hcase with
  | execute _ q hrun =>
    simp only [executeBy, hexec]
    exact ⟨slot, enter_entered img _ k slot d arg hfind, fun p hp => enter_other_pcb _ _ slot d arg hp⟩

theorem step_refused {command : Option CString} (hadm : ¬ Admitted img stack k command)
    (hs : step img stack k (.execute command) = some k') (c : Fin 6) : Within c k k' := by
  obtain ⟨message, hexec⟩ := execute_of_not_admitted hadm
  obtain ⟨-, hcase⟩ := step_by hs
  cases hcase with
  | execute _ q hrun =>
    simp only [executeBy, hexec]
    exact ⟨⟨rfl, rfl, rfl, rfl, refuse_placement k _ message⟩, ⟨rfl, rfl⟩, fun _ _ _ => rfl⟩

theorem step_call {x : Call} (hrun : k.running = some c)
    (hs : step img stack k (.call x) = some k') : Within c k k' := by
  obtain ⟨-, hcase⟩ := step_by hs
  cases hcase with
  | call _ q hrun' =>
    obtain rfl : q = c := Option.some.inj (hrun'.symm.trans hrun)
    refine ⟨⟨rfl, rfl, rfl, rfl, rfl⟩, ⟨?_, ?_⟩, fun p hp _ => ?_⟩
    · exact update_proj Pcb.links k.pcbs q q (by simp only [Pcb.links])
    · exact update_proj Pcb.argument k.pcbs q q rfl
    · exact congrArg Pcb.kept (Function.update_of_ne hp _ k.pcbs)

theorem halt_child_pcbs {p q i : Fin 6} (status : UInt8) (h : (k.pcbs p).parentPid ≠ -1)
    (hq : (k.pcbs p).parentPcb = some q) (hi : i ≠ p) :
    (halt img stack k p status).pcbs i = k.pcbs i := by
  simp only [halt, if_neg h, hq, resume_eq, handBack_pcbs, Function.update_of_ne hi]

/-- The end of the child undoes its start, whatever it did in between. -/
theorem bracket_restored {k₁ k₂ k₃ : State} {slot : Fin 6} {status : UInt8} (hk : Housed k)
    (hlost : k.lost = false) (hrun : k.running = some c) (he : Entered k k₁ slot)
    (hkept : ∀ p ≠ slot, (k₁.pcbs p).kept = (k.pcbs p).kept) (hbody : Within slot k₁ k₂)
    (hh : step img stack k₂ (.halt status) = some k₃) : Restored k k₃ := by
  obtain ⟨⟨st, hc⟩, hres⟩ := hk
  have hv := findPid_eq_some he.found
  have hcpid := hc.pid_eq k.currScheduler c (hc.running_mem hrun)
  have hterm : k.terminal k.currScheduler = some c := hrun
  -- the child's own links lead back to `c`
  have hlinks : (k₂.pcbs slot).links = (↑slot, ↑c, some c) := by
    rw [hbody.own.1, he.links_slot (hc.running_ne hv), hrun, pidOf, hcpid]
  have hpid : (k₂.pcbs slot).pid = slot := congrArg Prod.fst hlinks
  have hparent : (k₂.pcbs slot).parentPid = c := congrArg (fun l => l.2.1) hlinks
  have hpcb : (k₂.pcbs slot).parentPcb = some c := congrArg (fun l => l.2.2) hlinks
  have hcs : k₂.currScheduler = k.currScheduler := hbody.currScheduler.trans he.currScheduler
  have hrun₂ : k₂.running = some slot := hbody.running.trans he.running
  obtain ⟨-, hcase⟩ := step_by hh
  cases hcase with
  | halt _ p hp =>
    obtain rfl : p = slot := Option.some.inj (hp.symm.trans hrun₂)
    have hchild : ((k₂.note (.ended (k₂.trace.born p) status)).pcbs p).parentPid ≠ -1 := by
      rw [show (k₂.note _).pcbs = k₂.pcbs from rfl, hparent]
      omega
    have hr := halt_child img stack status hchild hpcb
    refine ⟨⟨?_, hr.currScheduler.trans hcs, ?_, ?_, ?_⟩, fun i hi => ?_⟩
    · rw [hr.terminal, show (k₂.note _).terminal = k₂.terminal from rfl,
        show (k₂.note _).currScheduler = k₂.currScheduler from rfl, hbody.terminal, he.terminal, hcs,
        Function.update_idem, ← hterm, Function.update_eq_self]
    · rw [hr.pid, show (k₂.note _).pid = k₂.pid from rfl, show (k₂.note _).pcbs = k₂.pcbs from rfl,
        hpid, hbody.pid, he.pid, Function.update_idem, ← hv, Function.update_eq_self]
    · rw [hr.counter, show (k₂.note _).processCounter = k₂.processCounter from rfl, hbody.counter,
        he.counter]
      omega
    · rw [halt_child_placement status hchild hpcb, show (k₂.note _).pcbs = k₂.pcbs from rfl,
        hparent, hres hlost c hrun, hcpid]
    · have hne : i ≠ p := by
        rintro rfl
        rw [hv] at hi
        exact absurd hi (by decide)
      have hocc : k₁.pid i = occupied := by rw [he.pid, update_pid_of_ne hne, hi]
      rw [halt_child_pcbs status hchild hpcb hne, show (k₂.note _).pcbs = k₂.pcbs from rfl,
        hbody.others i hne hocc, hkept i hne]

/-- What a process does on its own leaves the processes below it alone. -/
theorem Bracketed.within {es : List Event} (h : Bracketed img stack k es k') (hk : Housed k)
    (hrun : k.running = some c) : Within c k k' ∧ Housed k' := by
  induction h generalizing c with
  | done k => exact ⟨.refl c k, hk⟩
  | call x hs rest ih =>
    have hw := step_call hrun hs
    obtain ⟨hw', hk'⟩ := ih (hk.step hs) (hw.running.trans hrun)
    exact ⟨hw.trans hw', hk'⟩
  | refused command hadm hs rest ih =>
    have hw := step_refused hadm hs c
    obtain ⟨hw', hk'⟩ := ih (hk.step hs) (hw.running.trans hrun)
    exact ⟨hw.trans hw', hk'⟩
  | nested command status hadm hslot hs body hh rest ihbody ihrest =>
    obtain ⟨slot, he, hkept⟩ := step_entered hadm hslot hs
    obtain ⟨hbody, hk₂⟩ := ihbody (hk.step hs) he.running
    have hres := bracket_restored hk (step_by hs).1 hrun he hkept hbody hh
    obtain ⟨st, hc⟩ := hk.chained
    have hw := hres.within (hc.occupied_eq _ c (hc.running_mem hrun))
    obtain ⟨hw', hk'⟩ := ihrest (hk₂.step hh) (hw.running.trans hrun)
    exact ⟨hw.trans hw', hk'⟩

end Steps

/-- After a command and a well-bracketed run of its process up to its `halt`, the
parent runs again with all its records as before the call of `execute`. -/
theorem halt_undoes_execute (img : Image) (stack : ℕ → Stack) (k₀ k k₁ k₂ k₃ : State)
    (es bs : List Event) (hb : State.Boot k₀) (hr : runs img stack k₀ es = some k) (p : Fin 6)
    (hrun : k.running = some p) (hslot : ∃ s : Fin 6, k.pid s = vacant)
    (command : Option CString) (hadm : Admitted img stack k command)
    (hexec : step img stack k (.execute command) = some k₁) (hbody : Bracketed img stack k₁ bs k₂)
    (status : UInt8) (hhalt : step img stack k₂ (.halt status) = some k₃) :
    k₃.terminal k.currScheduler = some p ∧
      (k₃.pcbs p).pid = (k.pcbs p).pid ∧ (k₃.pcbs p).parentPid = (k.pcbs p).parentPid ∧
      (k₃.pcbs p).parentPcb = (k.pcbs p).parentPcb ∧ (k₃.pcbs p).argument = (k.pcbs p).argument ∧
      (k₃.pcbs p).fileDescriptor = (k.pcbs p).fileDescriptor ∧
      k₃.pid = k.pid ∧ k₃.processCounter = k.processCounter ∧
      k₃.pageDirectory 32 = k.pageDirectory 32 ∧ k₃.tss.esp0 = k.tss.esp0 := by
  have hk := housed_of_run hb hr
  have hfull : findPid k.pid ≠ none := by
    obtain ⟨s, hs⟩ := hslot
    exact fun hnone => findPid_eq_none hnone s hs
  obtain ⟨slot, he, hkept⟩ := step_entered hadm hfull hexec
  obtain ⟨hw, -⟩ := hbody.within (hk.step hexec) he.running
  have hres := bracket_restored hk (step_by hexec).1 hrun he hkept hw hhalt
  obtain ⟨st, hc⟩ := hk.chained
  obtain ⟨hlinks, harg, hfds⟩ := Pcb.kept_eq (hres.pcbs p (hc.occupied_eq _ p (hc.running_mem hrun)))
  obtain ⟨hpid, hparent, hpcb⟩ := Pcb.links_eq hlinks
  have hterm : k₃.terminal k.currScheduler = some p := by
    rw [hres.terminal]
    exact hrun
  exact ⟨hterm, hpid, hparent, hpcb, harg, hfds, hres.pid, hres.counter,
    congrArg Prod.fst hres.placement, congrArg Prod.snd hres.placement⟩

/-- The second shell starts and ends a third one before it ends. -/
theorem halt_undoes_execute_nested : ∃ k k₃, shellRuns [.tick] = some k ∧
    runs shellImage (fun _ => .zero) k [.execute (some shellName), .execute (some shellName),
      .halt 0, .halt 7] = some k₃ ∧ k₃.pid = k.pid ∧ k₃.pageDirectory 32 = k.pageDirectory 32 := by
  obtain ⟨k, hk, hrun, hpid, hadm⟩ := shellRuns_eval [.tick] (fun k => k.running = some 0 ∧
    k.pid (1 : Fin 6) = vacant ∧ Admitted shellImage (fun _ => .zero) k (some shellName))
    (by decide +kernel)
  obtain ⟨k₁, hk₁, hadm₁, hslot₁⟩ := shellRuns_eval [.tick, .execute (some shellName)]
    (fun k => Admitted shellImage (fun _ => .zero) k (some shellName) ∧ findPid k.pid ≠ none)
    (by decide +kernel)
  obtain ⟨k₅, hk₅, -⟩ := shellRuns_eval [.tick, .execute (some shellName),
    .execute (some shellName), .halt 0, .halt 7] (fun _ => True) (by decide +kernel)
  obtain ⟨k', hs, hrest⟩ := run_cons_eq_some.mp hk₅
  obtain rfl : k' = k := Option.some.inj ((run_cons_eq_some.mpr ⟨k', hs, rfl⟩).symm.trans hk)
  obtain ⟨k₁', hs₁, hrest₁⟩ := run_cons_eq_some.mp hrest
  obtain rfl : k₁' = k₁ := Option.some.inj ((run_snoc hk hs₁).symm.trans hk₁)
  obtain ⟨k₂, hs₂, hrest₂⟩ := run_cons_eq_some.mp hrest₁
  obtain ⟨k₃, hs₃, hrest₃⟩ := run_cons_eq_some.mp hrest₂
  obtain ⟨k₄, hs₄, hend⟩ := run_cons_eq_some.mp hrest₃
  obtain rfl : k₄ = k₅ := Option.some.inj hend
  have h := halt_undoes_execute _ _ _ _ _ _ _ _ _ State.cleared_boot hk 0 hrun ⟨1, hpid⟩ _ hadm hs₁
    (.nested _ 0 hadm₁ hslot₁ hs₂ (.done _) hs₃ (.done _)) 7 hs₄
  exact ⟨_, _, hk, hrest, h.2.2.2.2.2.2.1, h.2.2.2.2.2.2.2.2.1⟩

end Ece391.Kernel
