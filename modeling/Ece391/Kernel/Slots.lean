import Ece391.Kernel.Chains

/-! When a process can be started although all six pids are taken. The limit of
`execute` does not count for a terminal that has no process yet, nor for a program
called "exit". As long as neither happens with the counter at its limit, every
pid that is handed out lies in the table. -/

namespace Ece391.Kernel

open Function (update)
open Lib FileSys Syscall Support Support.Runs

/-- The timer is about to start a shell: the very first one, or one on the next terminal. -/
def StartsShell (k : State) : Prop :=
  k.running = none ∧ k.currScheduler = 0 ∨ k.running ≠ none ∧ k.terminal (k.currScheduler + 1) = none

/-- The program that a command names is called "exit". -/
def NamesExit (command : Option CString) : Prop :=
  strncmp (bufMem (parse command).filename) exitName.mem 5 = 0

/-- The event is not one of the two that pass the limit with the counter at 5. -/
def WithinLimit (k : State) : Event → Prop
  | .tick => StartsShell k → k.processCounter ≠ maxPid
  | .execute command => NamesExit command → k.processCounter ≠ maxPid
  | _ => True

instance (k : State) : Decidable (StartsShell k) := inferInstanceAs (Decidable (_ ∨ _))

instance (command : Option CString) : Decidable (NamesExit command) :=
  inferInstanceAs (Decidable (_ = _))

instance decidableWithinLimit (k : State) : (e : Event) → Decidable (WithinLimit k e)
  | .tick => inferInstanceAs (Decidable (_ → _))
  | .execute _ => inferInstanceAs (Decidable (_ → _))
  | .halt _ => isTrue trivial
  | .exception _ => isTrue trivial
  | .call _ => isTrue trivial

/-- What may be observed: pids in the table, and user pages that are not the frame
of the kernel. -/
def Allowed : Obs → Prop
  | .findPid r => 0 ≤ r ∧ r ≤ maxPid
  | .mapped entry => entry / fourMb ≠ 1
  | _ => True

/-- Nothing outside the table has been handed out, mapped or written. -/
structure Contained (k₀ k : State) : Prop where
  log : ∀ o ∈ k.trace.log, Allowed o
  outside : ∀ i : ℤ, ¬ (0 ≤ i ∧ i ≤ maxPid) → k.pid i = k₀.pid i

theorem userEntry_allowed : ∀ p : Fin 6, Allowed (.mapped (State.userEntry p)) := by
  have h : ∀ p : Fin 6, State.userEntry p / fourMb ≠ 1 := by decide
  exact h

theorem findPid_allowed (p : Fin 6) : Allowed (.findPid p) := by
  simp only [Allowed, maxPid]
  omega

/-- A command that is admitted at the limit is called "exit". -/
theorem admitted_limit {img : Image} {stack : ℕ → Stack} {k : State} {command : Option CString}
    (hadm : Admitted img stack k command) (hrun : k.running ≠ none)
    (hcount : k.processCounter = maxPid) : NamesExit command := by
  by_contra hexit
  simp only [Admitted, admission] at hadm
  split_ifs at hadm with hret hlimit
  · cases hadm
  · cases hadm
  · exact hlimit ⟨hrun, hcount, hexit⟩
  · exact hlimit ⟨hrun, hcount, hexit⟩

section Full
variable {k k' k₀ : State} {st : Chains}

/-- With all pids taken there are six processes. -/
theorem Chained.full (h : Chained k st) (hn : NeverFull k) (hfull : findPid k.pid = none) :
    k.processCounter = maxPid := by
  have hall : ∀ p, p ∈ st.all := by
    intro p
    rw [Chains.mem_all]
    by_contra hp
    exact findPid_eq_none hfull p (h.vacant_eq p (not_exists.mp hp))
  have hlen : st.all.length = 6 := by
    rw [← List.toFinset_card_of_nodup h.all_nodup,
      Finset.eq_univ_of_forall fun p => List.mem_toFinset.mpr (hall p)]
    rfl
  have hcount := (h.agree hn).counter
  rw [hlen] at hcount
  push_cast at hcount
  simp only [maxPid]
  omega

theorem Contained.append (h : Contained k₀ k) (os : List Obs)
    (hlog : k'.trace.log = k.trace.log ++ os) (hos : ∀ o ∈ os, Allowed o) (hpid : k'.pid = k.pid) :
    Contained k₀ k' := by
  refine ⟨fun o ho => ?_, fun i hi => by rw [hpid, h.outside i hi]⟩
  rw [hlog, List.mem_append] at ho
  exact ho.elim (h.log o) (hos o)

/-- One element of the table is written. -/
theorem Contained.write (h : Contained k₀ k) {os : List Obs} {p : Fin 6} {v : ℤ}
    (hlog : k'.trace.log = k.trace.log ++ os) (hos : ∀ o ∈ os, Allowed o)
    (hpid : k'.pid = update k.pid p v) : Contained k₀ k' := by
  refine ⟨fun o ho => ?_, fun i hi => ?_⟩
  · rw [hlog, List.mem_append] at ho
    exact ho.elim (h.log o) (hos o)
  · have hip : i ≠ p := by
      rintro rfl
      refine hi ⟨by omega, ?_⟩
      simp only [maxPid]
      omega
    rw [hpid, Function.update_of_ne hip, h.outside i hi]

theorem Contained.entered (h : Contained k₀ k) {slot : Fin 6} (he : Entered k k' slot) :
    Contained k₀ k' := by
  rcases he.outcome with ⟨-, hlog⟩ | ⟨⟨_, hlog⟩, -⟩
  · exact h.write hlog (List.forall_mem_cons.mpr
      ⟨findPid_allowed slot, List.forall_mem_singleton.mpr (userEntry_allowed slot)⟩) he.pid
  · refine h.write hlog (fun o ho => ?_) he.pid
    simp only [List.mem_cons, List.not_mem_nil, or_false] at ho
    rcases ho with rfl | rfl | rfl
    exacts [findPid_allowed slot, userEntry_allowed slot, trivial]

theorem Contained.refused (h : Contained k₀ k) (hr : Refused k k') : Contained k₀ k' :=
  h.append _ hr.log (List.forall_mem_singleton.mpr trivial) hr.pid

theorem Contained.note (h : Contained k₀ k) {o : Obs} (ho : Allowed o) : Contained k₀ (k.note o) :=
  h.append [o] rfl (List.forall_mem_singleton.mpr ho) rfl

theorem Contained.started (h : Contained k₀ k) (hroom : findPid k.pid ≠ none) (hs : Started k k') :
    Contained k₀ k' := by
  rcases hs with ⟨slot, he⟩ | ⟨-, hr | hf⟩
  · exact h.entered he
  · exact h.refused hr
  · exact absurd hf.full hroom

theorem Contained.ended (h : Contained k₀ k) (hc : Chained k st) {p : Fin 6}
    (hp : k.running = some p) (he : Ended k p k') : Contained k₀ k' := by
  have hmem := hc.running_mem hp
  have hpid := hc.pid_eq k.currScheduler p hmem
  cases he with
  | root hroot hs =>
    have hfreed : (freed k p).pid = update k.pid p vacant := by rw [← hpid]; rfl
    have hlog : (freed k p).trace.log = k.trace.log ++ [] := by simp [freed]
    refine (h.write hlog (by simp) hfreed).started ?_ hs
    intro hfull
    exact findPid_eq_none hfull p (by rw [hfreed, Function.update_self])
  | child q hchild hq hr =>
    have hparent : (k.pcbs p).parentPid = q := by
      rw [hc.parent_eq k.currScheduler p hmem, hq]
      rfl
    refine h.write hr.log ?_ (by rw [← hpid]; exact hr.pid)
    rw [hparent]
    exact List.forall_mem_cons.mpr ⟨userEntry_allowed q, List.forall_mem_singleton.mpr trivial⟩
  | orphan hchild hq => exact absurd ((hc.parent_none hp).mpr hq) hchild

/-- One step within the limit. -/
theorem Contained.step {img : Image} {stack : ℕ → Stack} {e : Event} (h : Contained k₀ k)
    (hc : Chained k st) (hlimit : WithinLimit k e) (hstep : step img stack k e = some k') :
    Contained k₀ k' := by
  have hn : NeverFull k := by
    intro hmem
    have := (h.log _ hmem).1
    omega
  obtain ⟨-, hcase⟩ := step_cases hstep
  clear hstep
  cases hcase with
  | firstShell hrun hcs hs =>
    have hq := clearScreen_quiet k
    have hclear : Contained k₀ (clearScreen k) :=
      h.append [] (clearScreen_log k) (by simp) hq.pid
    refine hclear.started ?_ hs
    rw [hq.pid]
    exact fun hfull => hlimit (Or.inl ⟨hrun, hcs⟩) (hc.full hn hfull)
  | noProcess hrun hk =>
    subst hk
    exact ⟨h.log, h.outside⟩
  | newShell hrun hnext hs =>
    refine Contained.started (k := nextTurn k) ⟨h.log, h.outside⟩ ?_ hs
    exact fun hfull => hlimit (Or.inr ⟨hrun, hnext⟩) (hc.full hn hfull)
  | turn p hrun hnext hk =>
    subst hk
    have hpid : (k.pcbs p).pid = p := by
      have hl := hc.linked (k.currScheduler + 1)
      rw [show k.terminal (k.currScheduler + 1) = some p from hnext] at hl
      obtain ⟨rest, hst, -⟩ := linked_some hl
      exact hc.pid_eq (k.currScheduler + 1) p (by simp [hst])
    refine h.append [.mapped (State.userEntry (k.pcbs p).pid)] rfl ?_ rfl
    rw [hpid]
    exact List.forall_mem_singleton.mpr (userEntry_allowed p)
  | refused command p hrun hr => exact h.refused hr
  | entered command p slot hrun hadm he => exact h.entered he
  | faulted command p k₁ hrun hadm hf he =>
    have hcount := hc.full hn hf.full
    have hsome : k.running ≠ none := by simp [hrun]
    exact absurd hcount (hlimit (admitted_limit hadm hsome hcount))
  | halt status p hrun he =>
    exact (h.note (o := .ended (k.trace.born p) status) trivial).ended (hc.note _) hrun he
  | exception e p hrun he =>
    have hraise : Contained k₀ (raise k p e) :=
      h.append [.trapped (k.trace.born p)] rfl (List.forall_mem_singleton.mpr trivial) rfl
    exact hraise.ended (hc.raised p e) hrun he
  | call c p hrun hk =>
    subst hk
    refine h.append _ rfl (fun o ho => ?_) rfl
    rcases mem_observe ho with ⟨fd, rfl⟩ | ⟨fd, ret, stored, rfl⟩
    exacts [trivial, trivial]

end Full

/-- In a run whose steps stay within the limit, `find_pid` always returns a slot of
the table, nothing around `pid[]` is written, and the frame of the kernel is never
mapped for a user program. -/
theorem slots_contained (img : Image) (stack : ℕ → Stack) (k₀ k : State) (es : List Event)
    (hb : State.Boot k₀) (hlimit : Along (step img stack) WithinLimit k₀ es)
    (hr : runs img stack k₀ es = some k) :
    (∀ r, .findPid r ∈ k.trace.log → 0 ≤ r ∧ r ≤ 5) ∧
      (∀ i : ℤ, ¬ (0 ≤ i ∧ i ≤ 5) → k.pid i = k₀.pid i) ∧
      ∀ entry, .mapped entry ∈ k.trace.log → entry / fourMb ≠ 1 := by
  obtain ⟨-, h⟩ := invariant_along (fun k => (∃ st, Chained k st) ∧ Contained k₀ k)
    (fun k e k' hg hs ⟨⟨st, hc⟩, h⟩ => ⟨hc.step hs, h.step hc hg hs⟩) hlimit hr
    ⟨⟨_, Boot.chained hb⟩, by simp [hb.log], fun _ _ => rfl⟩
  exact ⟨fun r hr => h.log _ hr, h.outside, fun entry he => h.log _ he⟩

/-- Three shells, one on each terminal, and a fourth process on the first. -/
theorem slots_contained_terminals : ∃ k,
    shellRuns [.tick, .tick, .tick, .tick, .execute (some shellName)] = some k ∧
      ∀ r, .findPid r ∈ k.trace.log → 0 ≤ r ∧ r ≤ 5 := by
  obtain ⟨k, hk, -⟩ := shellRuns_eval [.tick, .tick, .tick, .tick, .execute (some shellName)]
    (fun _ => True) (by decide +kernel)
  have hlimit : Along (step shellImage fun _ => .zero) WithinLimit .cleared
      [.tick, .tick, .tick, .tick, .execute (some shellName)] := by
    decide +kernel
  exact ⟨k, hk, (slots_contained shellImage (fun _ => .zero) .cleared k _ State.cleared_boot hlimit hk).1⟩

/-- `find_pid` has failed and the user page was the frame of the kernel. -/
def Exceeded (k : State) : Prop := .findPid (-1) ∈ k.trace.log ∧ .mapped 0x400087 ∈ k.trace.log

instance : DecidablePred Exceeded := fun _ => inferInstanceAs (Decidable (_ ∧ _))

/-- Six processes on the first terminal before the second has its shell, and six
processes of which one runs a program called "exit". -/
theorem slots_exceeded : State.Boot .cleared ∧
    (∃ k, shellRuns ([.tick] ++ List.replicate 5 (.execute (some shellName)) ++ [.tick]) = some k ∧
      Exceeded k) ∧
    ∃ k, shellRuns ([.tick] ++ List.replicate 5 (.execute (some shellName)) ++
        [.execute (some exitName)]) = some k ∧ Exceeded k :=
  ⟨State.cleared_boot, run_eval _ _ _ _ (by decide +kernel), run_eval _ _ _ _ (by decide +kernel)⟩

end Ece391.Kernel
