import Ece391.Kernel.Chains
import Ece391.Syscall.Calls

/-! What a new process finds in its table of descriptors. PCBs are reused without
being cleared, and `init_pcb` leaves descriptor 7 as it is. A slot that goes back
through the close loop of `halt` has it closed; the end of a root does not run that
loop. -/

namespace Ece391.Kernel

open Function (update)
open FileSys Syscall Support.Runs

/-- The flag of descriptor 7 in a PCB. -/
def lastFlag (k : State) (p : Fin 6) : ℕ := ((k.pcbs p).fileDescriptor 7).flags

/-- The event ends the running process. -/
def Ends (img : Image) (stack : ℕ → Stack) (k : State) (e : Event) : Prop :=
  (∃ status, e = .halt status) ∨ Traps img stack k e

instance decidableEnds (img : Image) (stack : ℕ → Stack) (k : State) :
    (e : Event) → Decidable (Ends img stack k e)
  | .halt status => isTrue (Or.inl ⟨status, rfl⟩)
  | .exception e => decidable_of_iff (Traps img stack k (.exception e)) (by simp [Ends])
  | .execute command => decidable_of_iff (Traps img stack k (.execute command)) (by simp [Ends])
  | .tick => decidable_of_iff (Traps img stack k .tick) (by simp [Ends])
  | .call c => decidable_of_iff (Traps img stack k (.call c)) (by simp [Ends])

/-- A root that ends has descriptor 7 closed. -/
def TidyRoot (img : Image) (stack : ℕ → Stack) (k : State) (e : Event) : Prop :=
  Ends img stack k e → RunsRoot k → ∀ p, k.running = some p → lastFlag k p = 0

instance (img : Image) (stack : ℕ → Stack) (k : State) (e : Event) :
    Decidable (TidyRoot img stack k e) := inferInstanceAs (Decidable (_ → _ → ∀ _, _ → _))

/-- Exactly descriptors 0 and 1 are open. -/
def OnlyStandard (fds : Fds) : Prop := ∀ i, (fds i).flags ≠ 0 ↔ i = 0 ∨ i = 1

/-- No slot that can be handed out has descriptor 7 open, and no process has found
anything but its standard descriptors. -/
structure Tidy (k : State) : Prop where
  free : ∀ p : Fin 6, k.pid p = vacant → lastFlag k p = 0
  le_one : ∀ p, lastFlag k p ≤ 1
  spawned : ∀ act slot parent fds entryPoint,
    .spawned act slot parent fds entryPoint ∈ k.trace.log → OnlyStandard fds

/-! ### The tables -/

theorem initFds_last (fds : Fds) : initFds fds 7 = fds 7 := by
  simp [initFds, Function.update]

theorem initFds_standard {fds : Fds} (h : (fds 7).flags = 0) : OnlyStandard (initFds fds) := by
  intro i
  fin_cases i <;> simp [initFds, Function.update, h]

/-- A round of the close loop leaves the other descriptors alone. -/
theorem closeIfOpen_other (dev : Devices) (fds : Fds) {i j : Fin 8} (hij : j ≠ i) :
    closeIfOpen dev fds i j = fds j := by
  rw [closeIfOpen]
  split_ifs
  · exact close_frame (p := ⟨fds, dev⟩) i fun h => hij (Fin.ext (by omega))
  · rfl

theorem closeLoop_other (dev : Devices) {l : List (Fin 8)} {j : Fin 8} (hj : j ∉ l) (fds : Fds) :
    l.foldl (closeIfOpen dev) fds j = fds j := by
  induction l generalizing fds with
  | nil => rfl
  | cons i l ih =>
    obtain ⟨hi, hl⟩ := List.ne_and_not_mem_of_not_mem_cons hj
    rw [List.foldl_cons, ih hl, closeIfOpen_other dev fds hi]

/-- The close loop closes descriptor 7 if its flag is 1. -/
theorem closeAll_last {fds : Fds} (dev : Devices) (h : (fds 7).flags ≤ 1) :
    (closeAll fds dev 7).flags = 0 := by
  have hrest := closeLoop_other dev (l := [0, 1, 2, 3, 4, 5, 6]) (j := 7) (by decide) fds
  have hsplit : closeAll fds dev =
      closeIfOpen dev (([0, 1, 2, 3, 4, 5, 6] : List (Fin 8)).foldl (closeIfOpen dev) fds) 7 := by
    simp only [closeAll, List.foldl_cons, List.foldl_nil]
  rw [hsplit]
  generalize List.foldl (closeIfOpen dev) fds _ = fds' at hrest
  rw [closeIfOpen, hrest]
  split_ifs with h1
  · have hopen : (fds' 7).flags ≠ 0 := by rw [hrest]; omega
    rw [close_open (p := ⟨fds', dev⟩) (i := 7) (by decide) hopen]
    simp [closedEntry]
  · rw [hrest]
    omega

/-- A flag is 0 or 1 after every call. -/
theorem call_flags_le {img : Image} {cs : Fin 3} {p : Proc} (c : Call) {j : Fin 8}
    (h : (p.fds j).flags ≤ 1) : ((call img cs p c).proc.fds j).flags ≤ 1 := by
  have hupdate {i : Fin 8} {entry : FileArray} (hentry : i = j → entry.flags ≤ 1) :
      (update p.fds i entry j).flags ≤ 1 := by
    by_cases hij : j = i
    · subst hij
      simpa using hentry rfl
    · simpa [hij] using h
  cases c with
  | «open» filename =>
    rw [call, sysOpen_eq]
    rcases openable img filename with _ | ⟨d, f⟩
    · exact h
    · cases firstFree p.fds with
      | none => exact h
      | some i => exact hupdate fun _ => le_refl _
  | close fd =>
    rw [call]
    by_cases hcl : Closed p fd ∨ fd < 2
    · rw [close_failure hcl]
      exact h
    · obtain ⟨i, rfl, h2, hf⟩ := close_passed hcl
      rw [close_open h2 hf]
      exact hupdate fun _ => Nat.zero_le _
  | read fd buf n keyBuf =>
    rw [call]
    by_cases hcl : n < 0 ∨ buf = false ∨ Closed p fd
    · rw [read_failure hcl]
      exact h
    · obtain ⟨i, rfl, rfl, hn, hf⟩ := read_passed hcl
      rw [read_open hn hf]
      exact hupdate fun hij => hij ▸ h
  | write fd buf n =>
    rw [call, write_fds]
    exact h

/-! ### The steps -/

section Tidy
variable {k k' : State} {st : Chains}

theorem Tidy.congr (h : Tidy k) (os : List Obs) (hpid : k'.pid = k.pid) (hpcbs : k'.pcbs = k.pcbs)
    (hlog : k'.trace.log = k.trace.log ++ os)
    (hos : ∀ act slot parent fds ep, .spawned act slot parent fds ep ∉ os) : Tidy k' := by
  refine ⟨fun p hp => ?_, fun p => ?_, fun act slot parent fds ep hmem => ?_⟩
  · rw [lastFlag, hpcbs]
    exact h.free p (by rwa [hpid] at hp)
  · rw [lastFlag, hpcbs]
    exact h.le_one p
  · rw [hlog, List.mem_append] at hmem
    exact hmem.elim (h.spawned act slot parent fds ep) fun hm => absurd hm (hos act slot parent fds ep)

theorem Tidy.refused (h : Tidy k) (hr : Refused k k') : Tidy k' :=
  h.congr _ hr.pid hr.pcbs hr.log (by simp)

theorem Tidy.faulted (h : Tidy k) (hf : Faulted k k') : Tidy k' :=
  h.congr _ hf.pid hf.pcbs hf.log (by simp)

theorem Tidy.raised (h : Tidy k) (p : Fin 6) (e : Exception) : Tidy (raise k p e) :=
  h.congr [.trapped (k.trace.born p)] rfl rfl rfl (by simp)

theorem Tidy.entered (h : Tidy k) {slot : Fin 6} (he : Entered k k' slot) : Tidy k' := by
  have hslot : lastFlag k slot = 0 := h.free slot (findPid_eq_some he.found)
  have hflag (p : Fin 6) : lastFlag k' p = lastFlag k p := by
    by_cases hp : p = slot
    · subst hp
      rw [lastFlag, he.fds_slot, initFds_last]
      rfl
    · rw [lastFlag, he.fds_other p hp]
      rfl
  refine ⟨fun p hp => ?_, fun p => by rw [hflag]; exact h.le_one p, fun act q parent fds ep hmem => ?_⟩
  · rw [hflag]
    by_cases hps : p = slot
    · rw [hps, hslot]
    · rw [he.pid, update_pid_of_ne hps] at hp
      exact h.free p hp
  · rcases he.outcome with ⟨-, hlog⟩ | ⟨⟨ep', hlog⟩, -⟩
    · rw [hlog, List.mem_append] at hmem
      exact hmem.elim (h.spawned act q parent fds ep) fun hm => by simp at hm
    · rw [hlog, List.mem_append] at hmem
      refine hmem.elim (h.spawned act q parent fds ep) fun hm => ?_
      obtain rfl : fds = initFds (k.pcbs slot).fileDescriptor := by
        simp only [List.mem_cons, reduceCtorEq, List.not_mem_nil, or_false, false_or,
          Obs.spawned.injEq] at hm
        exact hm.2.2.2.1
      exact initFds_standard hslot

theorem Tidy.started (h : Tidy k) (hs : Started k k') : Tidy k' := by
  rcases hs with ⟨slot, he⟩ | ⟨-, hr | hf⟩
  exacts [h.entered he, h.refused hr, h.faulted hf]

/-- The end of a process: the slot of a root must have descriptor 7 closed already. -/
theorem Tidy.ended (h : Tidy k) (hc : Chained k st) {p : Fin 6} (hp : k.running = some p)
    (hroot : (k.pcbs p).parentPid = -1 → lastFlag k p = 0) (he : Ended k p k') : Tidy k' := by
  have hpid := hc.pid_eq k.currScheduler p (hc.running_mem hp)
  have hvacant {i : Fin 6} {v : ℤ} (hne : i ≠ p) (hv : update k.pid (k.pcbs p).pid v i = vacant) :
      lastFlag k i = 0 := by
    rw [hpid, update_pid_of_ne hne] at hv
    exact h.free i hv
  cases he with
  | root hr hs =>
    refine Tidy.started (k := freed k p) ⟨fun i hi => ?_, h.le_one, h.spawned⟩ hs
    by_cases hip : i = p
    · exact hip ▸ hroot hr
    · exact hvacant hip hi
  | child q hchild hq hr =>
    have hflag (i : Fin 6) (hi : i ≠ p) : lastFlag k' i = lastFlag k i := by
      rw [lastFlag, hr.fds_other i hi]
      rfl
    have hended : lastFlag k' p = 0 := by
      rw [lastFlag, hr.fds_ended]
      exact closeAll_last k.dev (h.le_one p)
    refine ⟨fun i hi => ?_, fun i => ?_, fun act slot parent fds ep hmem => ?_⟩
    · by_cases hip : i = p
      · exact hip ▸ hended
      · rw [hflag i hip]
        exact hvacant hip (by rwa [hr.pid] at hi)
    · by_cases hip : i = p
      · rw [hip, hended]
        exact Nat.zero_le _
      · rw [hflag i hip]
        exact h.le_one i
    · rw [hr.log, List.mem_append] at hmem
      exact hmem.elim (h.spawned act slot parent fds ep) fun hm => by simp at hm
  | orphan hchild hq => exact absurd ((hc.parent_none hp).mpr hq) hchild

theorem Tidy.fileCall (h : Tidy k) (hc : Chained k st) {p : Fin 6} (hp : k.running = some p)
    (img : Image) (c : Call) : Tidy (fileCall img k p c) := by
  have hother (i : Fin 6) (hi : i ≠ p) : lastFlag (Kernel.fileCall img k p c) i = lastFlag k i := by
    simp only [lastFlag, Kernel.fileCall, State.modifyPcb, Function.update_of_ne hi]
  have hself : lastFlag (Kernel.fileCall img k p c) p ≤ 1 := by
    simp only [lastFlag, Kernel.fileCall, State.modifyPcb, Function.update_self]
    exact call_flags_le c (h.le_one p)
  refine ⟨fun i hi => ?_, fun i => ?_, fun act slot parent fds ep hmem => ?_⟩
  · have hi' : k.pid i = vacant := hi
    by_cases hip : i = p
    · exact absurd (hip ▸ hp) (hc.running_ne hi')
    · rw [hother i hip]
      exact h.free i hi'
  · by_cases hip : i = p
    · exact hip ▸ hself
    · rw [hother i hip]
      exact h.le_one i
  · rcases List.mem_append.mp hmem with hm | hm
    · exact h.spawned act slot parent fds ep hm
    · rcases mem_observe hm with ⟨_, ho⟩ | ⟨_, _, _, ho⟩ <;> cases ho

theorem Tidy.step {img : Image} {stack : ℕ → Stack} {e : Event} (h : Tidy k) (hc : Chained k st)
    (htidy : TidyRoot img stack k e) (hstep : step img stack k e = some k') : Tidy k' := by
  obtain ⟨-, hcase⟩ := step_cases hstep
  clear hstep
  have hroot {p : Fin 6} (hends : Ends img stack k e) (hrun : k.running = some p)
      (hr : (k.pcbs p).parentPid = -1) : lastFlag k p = 0 := htidy hends ⟨p, hrun, hr⟩ p hrun
  cases hcase with
  | firstShell hrun hcs hs =>
    have hq := clearScreen_quiet k
    have hclear : Tidy (clearScreen k) :=
      h.congr [] hq.pid hq.pcbs (clearScreen_log k) (by simp)
    exact hclear.started hs
  | noProcess hrun hk =>
    subst hk
    exact ⟨h.free, h.le_one, h.spawned⟩
  | newShell hrun hnext hs =>
    exact Tidy.started (k := nextTurn k) ⟨h.free, h.le_one, h.spawned⟩ hs
  | turn p hrun hnext hk =>
    subst hk
    exact h.congr [.mapped (State.userEntry (k.pcbs p).pid)] rfl rfl rfl (by simp)
  | refused command p hrun hr => exact h.refused hr
  | entered command p slot hrun hadm he => exact h.entered he
  | faulted command p k₁ hrun hadm hf he =>
    have hrun₁ := hf.running_raise hrun (e := .pf)
    refine ((h.faulted hf).raised p .pf).ended ((hc.faulted hf).raised p .pf) hrun₁ ?_ he
    have hflag : lastFlag (raise k₁ p .pf) p = lastFlag k p := by
      simp only [lastFlag, raise, State.note, State.print, hf.pcbs]
    intro hr
    rw [hflag]
    refine hroot (Or.inr ⟨hadm, hf.full⟩) hrun ?_
    rw [← hf.pcbs]
    exact hr
  | halt status p hrun he =>
    have htidy' : Tidy (k.note (.ended (k.trace.born p) status)) :=
      h.congr [.ended (k.trace.born p) status] rfl rfl rfl (by simp)
    exact htidy'.ended (hc.note _) hrun (hroot (Or.inl ⟨status, rfl⟩) hrun) he
  | exception e p hrun he =>
    exact (h.raised p e).ended (hc.raised p e) hrun (hroot (Or.inr trivial) hrun) he
  | call c p hrun hk =>
    subst hk
    exact h.fileCall hc hrun img c

end Tidy

/-- If descriptor 7 is closed in the PCB memory at boot and whenever a root ends, every
process starts with exactly its standard descriptors. -/
theorem new_process_standard (img : Image) (stack : ℕ → Stack) (k₀ k : State) (es : List Event)
    (hb : State.Boot k₀) (hmem : ∀ p, ((k₀.pcbs p).fileDescriptor 7).flags = 0)
    (htidy : Along (step img stack) (TidyRoot img stack) k₀ es)
    (hr : runs img stack k₀ es = some k) (act : ℕ) (slot : Fin 6) (parent : Option (Fin 6))
    (fds : Fds) (entryPoint : UInt32)
    (hspawn : .spawned act slot parent fds entryPoint ∈ k.trace.log) :
    ∀ i, (fds i).flags ≠ 0 ↔ i = 0 ∨ i = 1 := by
  have hmem₀ : Tidy k₀ :=
    ⟨fun p _ => hmem p, fun p => by rw [lastFlag, hmem p]; exact Nat.zero_le _, by simp [hb.log]⟩
  obtain ⟨-, h⟩ := invariant_along (fun k => (∃ st, Chained k st) ∧ Tidy k)
    (fun k e k' hg hs ⟨⟨st, hc⟩, h⟩ => ⟨hc.step hs, h.step hc hg hs⟩) htidy hr
    ⟨⟨_, Boot.chained hb⟩, hmem₀⟩
  exact h.spawned act slot parent fds entryPoint hspawn

/-- The observation is a start with descriptor 7 open. -/
def Leaks : Obs → Bool
  | .spawned _ _ _ fds _ => (fds 7).flags ≠ 0
  | _ => false

/-- A child that leaves descriptor 7 open, and a second child in the same slot. -/
theorem new_process_standard_child : ∃ k,
    shellRuns ([.tick, .execute (some shellName)] ++ List.replicate 6 (.call (.open (some shellName)))
      ++ [.halt 0, .execute (some shellName)]) = some k ∧
      ∀ act slot parent fds entryPoint, .spawned act slot parent fds entryPoint ∈ k.trace.log →
        ∀ i, (fds i).flags ≠ 0 ↔ i = 0 ∨ i = 1 := by
  obtain ⟨k, hk, -⟩ := shellRuns_eval
    ([.tick, .execute (some shellName)] ++ List.replicate 6 (.call (.open (some shellName)))
      ++ [.halt 0, .execute (some shellName)]) (fun _ => True) (by decide +kernel)
  have htidy : Along (step shellImage fun _ => .zero) (TidyRoot shellImage fun _ => .zero) .cleared
      ([.tick, .execute (some shellName)] ++ List.replicate 6 (.call (.open (some shellName)))
        ++ [.halt 0, .execute (some shellName)]) := by
    decide +kernel
  exact ⟨k, hk, new_process_standard shellImage (fun _ => .zero) .cleared k _ State.cleared_boot
    (fun _ => rfl) htidy hk⟩

/-- A root shell that opens six files and ends: its successor finds descriptor 7 open. -/
theorem new_process_leaks : State.Boot .cleared ∧
    (∀ p, ((State.cleared.pcbs p).fileDescriptor 7).flags = 0) ∧
    ∃ k, shellRuns ([.tick] ++ List.replicate 6 (.call (.open (some shellName))) ++ [.halt 0]) =
      some k ∧ ∃ o ∈ k.trace.log, Leaks o = true :=
  ⟨State.cleared_boot, fun _ => rfl, run_eval _ _ _ _ (by decide +kernel)⟩

end Ece391.Kernel
