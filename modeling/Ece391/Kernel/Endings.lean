import Ece391.Kernel.Ownership
import Ece391.Kernel.Returns

/-! How a call of `execute` ends for the process that made it. It fails at once, or it
returns when the program it started has taken an exception or called `halt`, whatever else
the processor has been doing meanwhile. What the parent is told is a number. -/

namespace Ece391.Kernel

open FileSys Syscall Support Support.Runs

/-- Nothing was started, the program took an exception, or it called `halt`. -/
inductive Ending
  | notStarted | faulted
  | halted (status : UInt8)
  deriving DecidableEq

/-- What `execute` returns. The status of `halt` does not get there. -/
def Ending.value : Ending → ℤ
  | .notStarted => -1
  | .faulted => 256
  | .halted _ => 0

def haltOf : UserEvent → Option UInt8
  | .video (.kernel (.halt status)) => some status
  | _ => none

/-- The ending that an event brings to the last call of `execute` by `p`. -/
def endingFor (tablePage : ℕ) (img : Image) (stack : ℕ → Stack) (p : Fin 6) (k : State)
    (e : UserEvent) : Option Ending :=
  match k.running with
  | none => none
  | some q =>
    if q = p then
      match e with
      | .video (.kernel (.execute command)) =>
        if Admitted img stack k command then none else some .notStarted
      | _ => none
    else if (k.pcbs q).parentPcb = some p ∧ EndsUser tablePage img stack q k e then
      some ((haltOf e).elim .faulted .halted)
    else none

/-- The value of the call of `execute` that returned last, if nothing has been observed since. -/
def lastReturned (k : State) : Option ℤ :=
  match k.trace.log.getLast? with
  | some (.returned _ value) => some value
  | _ => none

theorem Refused.lastReturned {k k' : State} (h : Refused k k') : lastReturned k' = some (-1) := by
  simp [Kernel.lastReturned, h.log]

theorem ReturnedTo.lastReturned {k k' : State} {p q : Fin 6} (h : ReturnedTo k k' p q) :
    lastReturned k' = some (if k.globalHalt = 1 then 256 else 0) := by
  simp [Kernel.lastReturned, h.log]

/-- A root process that ends by this event calls `halt`. -/
def SparesRootsUser (tablePage : ℕ) (img : Image) (stack : ℕ → Stack) (k : State) (e : UserEvent) :
    Prop :=
  ∀ q : Fin 6, k.running = some q → (k.pcbs q).parentPid = -1 → EndsUser tablePage img stack q k e →
    (haltOf e).isSome = true

instance (tablePage : ℕ) (img : Image) (stack : ℕ → Stack) (k : State) (e : UserEvent) :
    Decidable (SparesRootsUser tablePage img stack k e) :=
  inferInstanceAs (Decidable (∀ _ : Fin 6, _ → _ → _ → _))

section Endings
variable {tablePage : ℕ} {img : Image} {stack : ℕ → Stack} {p q : Fin 6} {k k' : State}
  {st : Chains} {e : UserEvent}

/-- A process with a parent returns to it. -/
theorem Chained.halt_returns (hc : Chained k st) (hrun : k.running = some q)
    (hparent : (k.pcbs q).parentPcb = some p) (img : Image) (stack : ℕ → Stack) {k₁ : State}
    (hpcbs : k₁.pcbs = k.pcbs) (status : UInt8) :
    ReturnedTo k₁ (halt img stack k₁ q status) q p := by
  have hpid := hc.parent_eq k.currScheduler q (hc.running_mem hrun)
  rw [hparent] at hpid
  have hchild : (k₁.pcbs q).parentPid ≠ -1 := by
    rw [hpcbs, hpid]
    simp only [pidValue]
    omega
  exact halt_child img stack status hchild (hpcbs ▸ hparent)

/-- The operation behind the end of a program. -/
theorem userStep_ends (hrun : k.running = some q) (hstep : userStep tablePage img stack k e = some k')
    (hend : EndsUser tablePage img stack q k e) :
    (∃ status, haltOf e = some status ∧
      k' = halt img stack (k.note (.ended (k.trace.born q) status)) q status) ∨
    (haltOf e = none ∧ ∃ (k₁ : State) (x : Exception), k₁.pcbs = k.pcbs ∧
      k' = trap img stack k₁ q x) := by
  have hlost := userStep_lost hstep
  cases userStep_by hstep with
  | video e hs =>
    cases e with
    | kernel e =>
      obtain ⟨-, hcase⟩ := step_by (show step img stack k e = some k' from hs)
      cases hcase with
      | halt status q' hrun' =>
        obtain rfl : q = q' := Option.some.inj (hrun.symm.trans hrun')
        exact .inl ⟨status, rfl, rfl⟩
      | exception x q' hrun' =>
        obtain rfl : q = q' := Option.some.inj (hrun.symm.trans hrun')
        exact .inr ⟨rfl, k, x, rfl, rfl⟩
      | execute command q' hrun' =>
        obtain rfl : q = q' := Option.some.inj (hrun.symm.trans hrun')
        obtain ⟨hadm, hfull⟩ := hend.2
        have hcases := execute_cases img stack k command
        simp only [executeBy]
        rcases hexec : execute img stack k command with ⟨k₁, r⟩
        simp only [hexec] at hcases
        rcases hcases with ⟨rfl, -⟩ | ⟨rfl, -, hf⟩ | ⟨-, -, slot, he⟩
        · have hne := execute_not_returned hadm
          rw [hexec] at hne
          exact absurd rfl hne
        · exact .inr ⟨rfl, k₁, .pf, hf.pcbs, rfl⟩
        · exact absurd (he.found.symm.trans hfull) (by simp)
      | _ => exact absurd hend.2 id
    | switch n => exact absurd hend id
    | vidmap screenStart =>
      obtain ⟨-, haccepts, hroom⟩ := hend
      simp only [videoStep, hlost, Bool.false_eq_true, if_false, hrun, Option.map_some,
        Option.some.injEq] at hs
      simp only [vidmap, if_pos haccepts, if_neg (not_le.mpr hroom)] at hs
      exact .inr ⟨rfl, openWindow tablePage k, .pf, rfl, hs.symm⟩
  | fault q' addr byte hrun' haddr hk =>
    obtain rfl : q = q' := Option.some.inj (hrun.symm.trans hrun')
    exact .inr ⟨rfl, k, .pf, rfl, hk⟩
  | stored q' addr byte phys hrun' haddr hk => exact absurd (hend.2.symm.trans haddr) (by simp)
  | readTo => exact absurd hend id
  | getargsTo => exact absurd hend id

/-- The call returns the number for its ending, if no exception mark was left by another. -/
theorem Walled.returns_ending (h : Walled tablePage k) (hidle : k.globalHalt ≠ 1)
    (hstep : userStep tablePage img stack k e = some k') {ending : Ending}
    (hending : endingFor tablePage img stack p k e = some ending) :
    lastReturned k' = some ending.value := by
  obtain ⟨st, hc⟩ := h.housed.chained
  simp only [endingFor] at hending
  cases hrun : k.running with
  | none => simp [hrun] at hending
  | some q =>
    simp only [hrun] at hending
    split_ifs at hending with hq hends
    · -- a call of `execute` by the process itself
      split at hending
      · rename_i command
        split_ifs at hending with hadm
        obtain rfl := Option.some.inj hending
        obtain ⟨-, hcase⟩ := step_cases (show step img stack k (.execute command) = some k' from hstep)
        cases hcase with
        | refused _ _ _ hr => exact hr.lastReturned
        | entered _ _ _ _ hadm' => exact absurd hadm' hadm
        | faulted _ _ _ _ hadm' => exact absurd hadm' hadm
      · cases hending
    · obtain rfl := Option.some.inj hending
      rcases userStep_ends hrun hstep hends.2 with ⟨status, hstatus, rfl⟩ | ⟨hnone, k₁, x, hpcbs, rfl⟩
      · have hpcbs : (k.note (.ended (k.trace.born q) status)).pcbs = k.pcbs := rfl
        have hret := hc.halt_returns hrun hends.1 img stack hpcbs status
        have hmark : (k.note (.ended (k.trace.born q) status)).globalHalt ≠ 1 := hidle
        rw [hret.lastReturned, if_neg hmark, hstatus]
        rfl
      · -- the handler has set the mark
        have hraised : (raise k₁ q x).pcbs = k.pcbs := hpcbs
        have hret := hc.halt_returns hrun hends.1 img stack hraised 1
        have hmark : (raise k₁ q x).globalHalt = 1 := rfl
        rw [trap, hret.lastReturned, if_pos hmark, hnone]
        rfl

/-! ### The exception mark -/

theorem Started.globalHalt (h : Started k k') : k'.globalHalt = k.globalHalt := by
  rcases h with ⟨slot, he⟩ | ⟨-, hr | hf⟩
  · exact he.globalHalt
  · exact hr.globalHalt
  · exact hf.globalHalt

/-- The end of a program leaves no mark: `halt` sets none, and the mark of a handler is taken
back where the parent goes on. -/
theorem Chained.ends_idle (hc : Chained k st) (hidle : k.globalHalt ≠ 1) (hrun : k.running = some q)
    (hstep : userStep tablePage img stack k e = some k')
    (hend : EndsUser tablePage img stack q k e)
    (hspare : SparesRootsUser tablePage img stack k e) : k'.globalHalt ≠ 1 := by
  rcases userStep_ends hrun hstep hend with ⟨status, -, rfl⟩ | ⟨hnone, k₁, x, hpcbs, rfl⟩
  · set k₂ := k.note (.ended (k.trace.born q) status)
    cases halt_ended img stack k₂ q status with
    | root hroot hs => exact (hs.globalHalt : _ = k.globalHalt) ▸ hidle
    | child i hchild hi hr =>
      rw [hr.globalHalt, if_neg (show k₂.globalHalt ≠ 1 from hidle)]
      exact hidle
    | orphan hchild hi => exact absurd ((hc.parent_none hrun).mpr hi) hchild
  · have hroot : (k.pcbs q).parentPid ≠ -1 := fun hroot => by
      simpa [hnone] using hspare q hrun hroot hend
    cases hparent : (k.pcbs q).parentPcb with
    | none => exact absurd ((hc.parent_none hrun).mpr hparent) hroot
    | some i =>
      have hraised : (raise k₁ q x).pcbs = k.pcbs := hpcbs
      have hret := hc.halt_returns hrun hparent img stack hraised 1
      have hmark : (raise k₁ q x).globalHalt = 1 := rfl
      rw [trap, hret.globalHalt, if_pos hmark]
      exact zero_ne_one

/-- No mark is pending between two events. -/
theorem Walled.idle (h : Walled tablePage k) (hidle : k.globalHalt ≠ 1)
    (hstep : userStep tablePage img stack k e = some k')
    (hspare : SparesRootsUser tablePage img stack k e) : k'.globalHalt ≠ 1 := by
  obtain ⟨st, hc⟩ := h.housed.chained
  have hlost := userStep_lost hstep
  by_cases hend : ∃ q, k.running = some q ∧ EndsUser tablePage img stack q k e
  · obtain ⟨q, hrun, hend⟩ := hend
    exact hc.ends_idle hidle hrun hstep hend hspare
  · suffices hsame : k'.globalHalt = k.globalHalt from hsame ▸ hidle
    cases userStep_by hstep with
    | video e hs =>
      cases e with
      | kernel e =>
        obtain ⟨-, hcase⟩ := step_cases (show step img stack k e = some k' from hs)
        cases hcase with
        | firstShell hrun hcs hst => exact hst.globalHalt.trans (clearScreen_quiet k).globalHalt
        | noProcess hrun hk => rw [hk]
        | newShell hrun hnext hst => exact hst.globalHalt
        | turn i hrun hnext hk => exact hk ▸ rfl
        | refused command i hrun hr => exact hr.globalHalt
        | entered command i slot hrun hadm he => exact he.globalHalt
        | faulted command i k₁ hrun hadm hf he => exact absurd ⟨i, hrun, hrun, hadm, hf.full⟩ hend
        | halt status i hrun he => exact absurd ⟨i, hrun, hrun⟩ hend
        | exception x i hrun he => exact absurd ⟨i, hrun, hrun, trivial⟩ hend
        | call c i hrun hk => exact hk ▸ rfl
      | switch n =>
        simp only [videoStep, hlost, Bool.false_eq_true, if_false, Option.some.injEq] at hs
        exact hs ▸ rfl
      | vidmap screenStart =>
        simp only [videoStep, hlost, Bool.false_eq_true, if_false] at hs
        obtain ⟨i, hrun, rfl⟩ := Option.map_eq_some_iff.mp hs
        simp only [vidmap]
        split_ifs with haccepts hroom
        · rfl
        · exact absurd ⟨i, hrun, hrun, haccepts, by omega⟩ hend
        · rfl
    | fault i addr byte hrun haddr hk => exact absurd ⟨i, hrun, hrun, haddr⟩ hend
    | stored i addr byte phys hrun haddr hk =>
      subst hk
      unfold storePhys
      cases frameOf phys with
      | some i => rfl
      | none =>
        dsimp only
        split_ifs <;> rfl
    | readTo i fd addr nbytes keyBuf hrun hk =>
      subst hk
      unfold deliver
      split_ifs <;> rfl
    | getargsTo i addr nbytes hrun hk =>
      subst hk
      unfold deliver
      split_ifs <;> rfl

end Endings

end Ece391.Kernel
