import Ece391.Kernel.Chains

/-! Where a user program runs: the frame behind `page_directory[32]` and the kernel
stack in `tss.esp0`. Three operations set the two, each from another record: `execute`
from the new pid, `halt` from `parent_pid`, and the scheduler from the PCB of the next
terminal. A step that is none of these leaves both alone. -/

namespace Ece391.Kernel

open Function (update)
open Lib FileSys Syscall Support.Runs

/-- The user page and the kernel stack in use. -/
def placement (k : State) : ℕ × ℕ := (k.pageDirectory 32, k.tss.esp0)

/-- The user page and the kernel stack that belong to a pid. -/
def home (p : ℤ) : ℕ × ℕ := (State.userEntry p, ((0x800000 - p * 0x2000 - 4) % 2 ^ 32).toNat)

/-- The running process has its own user page and its own kernel stack. -/
def Resident (k : State) : Prop := ∀ p, k.running = some p → placement k = home (k.pcbs p).pid

/-! ### The operations -/

section Operations
variable {img : Image} {k : State}

theorem mapUser_directory (k : State) (p : ℤ) :
    (k.mapUser p).pageDirectory 32 = State.userEntry p := by
  simp [State.mapUser, State.note]

theorem refuse_placement (k : State) (act : ℕ) (message : List UInt8) :
    placement (refuse (beginCall k) act message) = placement k := rfl

theorem enter_placement (stack : Stack) (slot : Fin 6) (act : ℕ) (d : Dentry) (arg : List UInt8)
    (h : (enter img stack (claimPid (beginCall k) (some slot)) act slot d arg).lost = false) :
    placement (enter img stack (claimPid (beginCall k) (some slot)) act slot d arg) = home slot := by
  simp only [enter] at h ⊢
  split_ifs at h ⊢
  exact Prod.ext (mapUser_directory k slot) rfl

/-- What a call of `execute` that does not fault does to the placement. -/
theorem execute_placement (img : Image) (k : State) (stack : ℕ → Stack) (command : Option CString)
    (hlost : (execute img stack k command).1.lost = false) :
    (execute img stack k command).2 = .returned ∧
      placement (execute img stack k command).1 = placement k ∨
    (execute img stack k command).2 = .pageFault ∨
    (execute img stack k command).2 = .entered ∧ ∃ slot, findPid k.pid = some slot ∧
      placement (execute img stack k command).1 = home slot := by
  simp only [execute] at hlost ⊢
  cases hadm : admission img (stack k.trace.activations) (beginCall k) command with
  | refused message => exact Or.inl ⟨rfl, refuse_placement k _ message⟩
  | admitted d arg =>
    cases hfind : findPid (beginCall k).pid with
    | none => exact Or.inr (Or.inl rfl)
    | some slot =>
      rw [hadm] at hlost
      simp only [hfind] at hlost
      exact Or.inr (Or.inr ⟨rfl, slot, hfind, enter_placement _ slot _ d arg hlost⟩)

/-- A shell started by the kernel is entered, unless the kernel is lost. -/
theorem startShell_placement (stack : ℕ → Stack) (hlost : (startShell img stack k).lost = false) :
    ∃ slot, Entered k (startShell img stack k) slot ∧
      placement (startShell img stack k) = home slot := by
  obtain ⟨slot, he⟩ | ⟨hl, -⟩ := startShell_started img stack k
  · refine ⟨slot, he, ?_⟩
    have hplace := execute_placement img k stack (some shellName)
    simp only [startShell] at hlost ⊢
    rcases hexec : execute img stack k (some shellName) with ⟨k', r⟩
    rw [hexec] at hlost hplace
    cases r with
    | returned => simp at hlost
    | pageFault => simp at hlost
    | entered =>
      rcases hplace hlost with ⟨hr, -⟩ | hr | ⟨-, slot', hfind, hhome⟩
      · simp at hr
      · simp at hr
      · obtain rfl : slot' = slot := Option.some.inj (hfind.symm.trans he.found)
        exact hhome
  · rw [hl] at hlost
    cases hlost

theorem resume_placement (k : State) (act : ℕ) : placement (resume k act) = placement k := by
  rw [resume_eq]
  rfl

theorem handBack_placement (k : State) (p q : Fin 6) (status : UInt8) :
    placement (handBack k p q status) = home (k.pcbs p).parentPid :=
  Prod.ext (mapUser_directory k _) rfl

theorem halt_child_placement {stack : ℕ → Stack} {p q : Fin 6} (status : UInt8)
    (h : (k.pcbs p).parentPid ≠ -1) (hq : (k.pcbs p).parentPcb = some q) :
    placement (halt img stack k p status) = home (k.pcbs p).parentPid := by
  simp only [halt, if_neg h, hq, resume_placement, handBack_placement]

theorem continueProcess_placement (k : State) (p : Fin 6) :
    placement (continueProcess k p) = home (k.pcbs p).pid :=
  Prod.ext (mapUser_directory k _) rfl

end Operations

/-! ### The steps -/

section Steps
variable {img : Image} {stack : ℕ → Stack} {k k' : State} {st : Chains}

theorem Resident.of_entered (hc : Chained k st) {slot : Fin 6} (he : Entered k k' slot)
    (hplace : placement k' = home slot) : Resident k' := by
  intro p hp
  obtain rfl : slot = p := Option.some.inj (he.running.symm.trans hp)
  have hlinks := he.links_slot (hc.running_ne (findPid_eq_some he.found))
  have hpid : (k'.pcbs slot).pid = slot := congrArg Prod.fst hlinks
  rw [hplace, hpid]

theorem Resident.of_startShell (hc : Chained k st) (hlost : (startShell img stack k).lost = false) :
    Resident (startShell img stack k) := by
  obtain ⟨slot, he, hplace⟩ := startShell_placement stack hlost
  exact .of_entered hc he hplace

/-- The end of a process, by itself or by an exception. -/
theorem Resident.of_halt (hc : Chained k st) {p : Fin 6} (hp : k.running = some p) (status : UInt8)
    (hlost : (halt img stack k p status).lost = false) : Resident (halt img stack k p status) := by
  by_cases hroot : (k.pcbs p).parentPid = -1
  · obtain ⟨st', hfreed⟩ := hc.freed hp hroot
    have heq : halt img stack k p status = startShell img stack (freed k p) := by
      simp only [halt, hroot, if_true, freed]
    rw [heq] at hlost ⊢
    exact .of_startShell hfreed hlost
  · obtain ⟨q, hq⟩ : ∃ q, (k.pcbs p).parentPcb = some q :=
      Option.ne_none_iff_exists'.mp (mt (hc.parent_none hp).mpr hroot)
    have hr := halt_child img stack status hroot hq
    intro i hi
    obtain rfl : q = i := Option.some.inj (hr.running.symm.trans hi)
    have hmem := hc.running_mem hp
    obtain ⟨rest, hst, hlinked⟩ := hc.running_eq hp
    rw [hq] at hlinked
    obtain ⟨m, rfl, -⟩ := Support.linked_some hlinked
    have hqid : (k.pcbs q).pid = q := hc.pid_eq k.currScheduler q (by simp [hst])
    have hparent : (k.pcbs p).parentPid = q := by
      rw [hc.parent_eq k.currScheduler p hmem, hq]
      rfl
    rw [halt_child_placement status hroot hq, (Pcb.links_eq (hr.links q)).1, hqid, hparent]

theorem Resident.step {e : Event} (h : Resident k) (hc : Chained k st)
    (hstep : step img stack k e = some k') (hlost : k'.lost = false) : Resident k' := by
  obtain ⟨-, hcase⟩ := step_by hstep
  clear hstep
  cases hcase with
  | firstShell hrun hcs => exact .of_startShell hc.cleared hlost
  | noProcess hrun hcs => simp at hlost
  | newShell p hrun hnext => exact .of_startShell hc.turned hlost
  | turn p q hrun hnext =>
    intro i hi
    obtain rfl : q = i := Option.some.inj (hnext.symm.trans hi)
    rw [continueProcess_placement]
    rfl
  | execute command p hrun =>
    have hcases := execute_cases img stack k command
    have hplace := execute_placement img k stack command
    simp only [executeBy] at hlost ⊢
    rcases hexec : execute img stack k command with ⟨k₁, r⟩
    rw [hexec] at hlost hplace
    simp only [hexec] at hcases
    rcases hcases with ⟨rfl, hr⟩ | ⟨rfl, -, hf⟩ | ⟨rfl, -, slot, he⟩
    · obtain ⟨-, hp⟩ | hp | ⟨hp, -⟩ := hplace hlost
      · intro i hi
        have hi' : k.running = some i := by
          rw [← hi, State.running, State.running, hr.terminal, hr.currScheduler]
        rw [hp, h i hi', hr.pcbs]
      · cases hp
      · cases hp
    · exact .of_halt ((hc.faulted hf).raised p .pf) (hf.running_raise hrun) 1 hlost
    · obtain ⟨hp, -⟩ | hp | ⟨-, slot', hfind, hp⟩ := hplace hlost
      · cases hp
      · cases hp
      · obtain rfl : slot' = slot := Option.some.inj (hfind.symm.trans he.found)
        exact .of_entered hc he hp
  | halt status p hrun => exact .of_halt (hc.note _) hrun status hlost
  | exception e p hrun => exact .of_halt (hc.raised p e) hrun 1 hlost
  | call c p hrun =>
    intro i hi
    have hlinks : ((fileCall img k p c).pcbs i).links = (k.pcbs i).links :=
      update_proj Pcb.links k.pcbs p i (by simp only [Pcb.links])
    have hpid := (Pcb.links_eq hlinks).1
    exact (h i hi).trans (congrArg home hpid.symm)

end Steps

/-- The placement in every reachable state in which the kernel is not lost. -/
structure Housed (k : State) : Prop where
  chained : ∃ st, Chained k st
  resident : k.lost = false → Resident k

theorem Housed.step {img : Image} {stack : ℕ → Stack} {k k' : State} {e : Event} (h : Housed k)
    (hstep : step img stack k e = some k') : Housed k' := by
  obtain ⟨⟨st, hc⟩, hr⟩ := h
  exact ⟨hc.step hstep, (hr (step_by hstep).1).step hc hstep⟩

theorem Boot.housed {k : State} (h : State.Boot k) : Housed k := by
  refine ⟨⟨_, Boot.chained h⟩, fun _ p hp => ?_⟩
  rw [State.running, h.terminal] at hp
  cases hp

theorem housed_of_run {img : Image} {stack : ℕ → Stack} {k₀ k : State} {es : List Event}
    (hb : State.Boot k₀) (hr : runs img stack k₀ es = some k) : Housed k :=
  invariant_run Housed (fun _ _ _ hs h => h.step hs) hr (Boot.housed hb)

/-- The user program of a process runs: the kernel has entered or resumed it. -/
def UserRuns (k : State) (p : Fin 6) : Prop := k.lost = false ∧ k.running = some p

instance (k : State) (p : Fin 6) : Decidable (UserRuns k p) := inferInstanceAs (Decidable (_ ∧ _))

theorem Chained.pid_range {k : State} {st : Chains} (hc : Chained k st) {p : Fin 6}
    (hp : k.running = some p) : 0 ≤ (k.pcbs p).pid ∧ (k.pcbs p).pid ≤ 5 := by
  rw [hc.pid_eq k.currScheduler p (hc.running_mem hp)]
  omega

/-- Wherever a user program is entered or resumed, it runs on the user page and on the
kernel stack of its own pid. -/
theorem runs_at_home (img : Image) (stack : ℕ → Stack) (k₀ k : State) (es : List Event)
    (hb : State.Boot k₀) (hr : runs img stack k₀ es = some k) (p : Fin 6) (hp : UserRuns k p) :
    0 ≤ (k.pcbs p).pid ∧
      k.pageDirectory 32 = (0x800000 + (k.pcbs p).pid.toNat * 0x400000) ||| 0x87 ∧
      (k.tss.esp0 : ℤ) = 0x800000 - (k.pcbs p).pid * 0x2000 - 4 := by
  obtain ⟨⟨st, hc⟩, hres⟩ := housed_of_run hb hr
  obtain ⟨hlost, hrun⟩ := hp
  have hplace := hres hlost p hrun
  obtain ⟨h0, h5⟩ := hc.pid_range hrun
  have hdir : k.pageDirectory 32 = State.userEntry (k.pcbs p).pid := congrArg Prod.fst hplace
  have hesp : k.tss.esp0 = ((0x800000 - (k.pcbs p).pid * 0x2000 - 4) % 2 ^ 32).toNat :=
    congrArg Prod.snd hplace
  refine ⟨h0, ?_, ?_⟩
  · rw [hdir, State.userEntry]
    congr 1
    omega
  · rw [hesp]
    omega

/-- A second shell on the first terminal. -/
theorem runs_at_home_second : ∃ k, shellRuns [.tick, .execute (some shellName)] = some k ∧
    k.pageDirectory 32 = 0xC00087 ∧ k.tss.esp0 = 0x7FDFFC := by
  obtain ⟨k, hk, huser, hpid⟩ := shellRuns_eval [.tick, .execute (some shellName)]
    (fun k => UserRuns k 1 ∧ (k.pcbs 1).pid = 1) (by decide +kernel)
  obtain ⟨-, hdir, hesp⟩ := runs_at_home _ _ _ _ _ State.cleared_boot hk 1 huser
  rw [hpid] at hdir hesp
  exact ⟨k, hk, hdir, by omega⟩

end Ece391.Kernel
