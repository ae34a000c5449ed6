import Ece391.Kernel.Listings
import Ece391.Kernel.Ownership

/-! The descriptor tables along a run. While a process lives only its own calls change its
table, and the listing position is changed only by reads of a directory. -/

namespace Ece391.Kernel

open Function (update)
open Lib FileSys Syscall Devices Support.Runs

/-- The table of `p` and the listing position are as before. -/
structure Leaves (p : Fin 6) (k k' : State) : Prop where
  fds : (k'.pcbs p).fileDescriptor = (k.pcbs p).fileDescriptor
  directoryIndex : k'.dev.directoryIndex = k.dev.directoryIndex

section Leaves
variable {p q slot : Fin 6} {k k' k'' : State} {st : Chains}

theorem Leaves.trans (h : Leaves p k k') (h' : Leaves p k' k'') : Leaves p k k'' :=
  ⟨h'.fds.trans h.fds, h'.directoryIndex.trans h.directoryIndex⟩

theorem Quiet.leaves (h : Quiet k k') : Leaves p k k' := ⟨by rw [h.pcbs], h.directoryIndex⟩

theorem Entered.leaves (h : Entered k k' slot) (hp : k.pid p = occupied) : Leaves p k k' := by
  have hne : p ≠ slot := by
    rintro rfl
    exact absurd (hp.symm.trans (findPid_eq_some h.found)) (by decide)
  exact ⟨h.fds_other p hne, h.directoryIndex⟩

theorem Started.leaves (h : Started k k') (hp : k.pid p = occupied) : Leaves p k k' := by
  rcases h with ⟨slot, he⟩ | ⟨-, hr | hf⟩
  exacts [he.leaves hp, hr.toQuiet.leaves, hf.toQuiet.leaves]

/-- The end of another process. -/
theorem Ended.leaves (h : Ended k q k') (hc : Chained k st) (hq : k.running = some q)
    (hpid : (k.pcbs q).pid ≠ p) (hp : k.pid p = occupied) : Leaves p k k' := by
  cases h with
  | root hroot hs =>
    have hfreed : (freed k q).pid p = occupied := (Function.update_of_ne hpid.symm _ _).trans hp
    have hleaves : Leaves p (freed k q) k' := hs.leaves hfreed
    exact ⟨hleaves.fds, hleaves.directoryIndex⟩
  | child i hchild hi hr =>
    have hne : p ≠ q := by
      rintro rfl
      exact hpid (hc.pid_eq k.currScheduler p (hc.running_mem hq))
    exact ⟨hr.fds_other p hne, hr.directoryIndex⟩
  | orphan hchild hi => exact absurd ((hc.parent_none hq).mpr hi) hchild

/-- Everything in the kernel but the calls on descriptors. -/
theorem step_leaves {tablePage : ℕ} {img : Image} {stack : ℕ → Stack} {e : Event}
    (h : Walled tablePage k) (hp : k.pid p = occupied) (hcall : ∀ c, e ≠ .call c)
    (hend : ¬ EndsUser tablePage img stack p k (.video (.kernel e)))
    (hstep : step img stack k e = some k') : Leaves p k k' := by
  obtain ⟨st, hc⟩ := h.housed.chained
  obtain ⟨-, hcase⟩ := step_cases hstep
  clear hstep
  cases hcase with
  | firstShell hrun hcs hs =>
    have hquiet := clearScreen_quiet k
    exact hquiet.leaves.trans (hs.leaves (by rw [hquiet.pid, hp]))
  | noProcess hrun hk => exact hk ▸ ⟨rfl, rfl⟩
  | newShell hrun hnext hs =>
    have hleaves : Leaves p (nextTurn k) k' := hs.leaves hp
    exact ⟨hleaves.fds, hleaves.directoryIndex⟩
  | turn q hrun hnext hk => exact hk ▸ ⟨rfl, rfl⟩
  | refused command q hrun hr => exact hr.toQuiet.leaves
  | entered command q slot hrun hadm he => exact he.leaves hp
  | faulted command q k₁ hrun hadm hf he =>
    have hother : (k.pcbs q).pid ≠ p := h.pid_ne hrun fun hp' => hend ⟨hp', hadm, hf.full⟩
    have hleaves := he.leaves (p := p) ((hc.faulted hf).raised q .pf) (hf.running_raise hrun)
      (by rw [← hf.pcbs] at hother; exact hother) (by rw [← hf.pid] at hp; exact hp)
    exact hf.toQuiet.leaves.trans ⟨hleaves.fds, hleaves.directoryIndex⟩
  | halt status q hrun he =>
    have hleaves := he.leaves (p := p) (hc.note _) hrun (h.pid_ne hrun hend) hp
    exact ⟨hleaves.fds, hleaves.directoryIndex⟩
  | exception x q hrun he =>
    have hother : (k.pcbs q).pid ≠ p := h.pid_ne hrun fun hp' => hend ⟨hp', trivial⟩
    have hleaves := he.leaves (p := p) (hc.raised q x) hrun hother hp
    exact ⟨hleaves.fds, hleaves.directoryIndex⟩
  | call c q hrun hk => exact absurd rfl (hcall c)

theorem fileCall_leaves (img : Image) {c : Call} (hpq : p ≠ q) :
    ((fileCall img k q c).pcbs p).fileDescriptor = (k.pcbs p).fileDescriptor := by
  simp only [fileCall, State.modifyPcb, Function.update_of_ne hpq]

end Leaves

/-! ### Events of the machine -/

/-- The call on descriptors that the running program makes with an event. -/
def fileCallOf : UserEvent → Option Call
  | .video (.kernel (.call c)) => some c
  | .readTo fd addr nbytes keyBuf => some (readCall fd addr nbytes keyBuf)
  | _ => none

/-- The running program reads from a directory. -/
def readsDirectory (k : State) (e : UserEvent) : Bool :=
  match k.running, fileCallOf e with
  | some q, some c => (dirReadOn (k.pcbs q).fileDescriptor c).isSome
  | _, _ => false

section Events
variable {tablePage : ℕ} {img : Image} {stack : ℕ → Stack} {p : Fin 6} {k k' : State}

theorem trap_leaves (h : Walled tablePage k) (hlost : k.lost = false) (hp : k.pid p = occupied)
    {q : Fin 6} (hrun : k.running = some q) (hq : k.running ≠ some p) (x : Exception) :
    Leaves p k (trap img stack k q x) := by
  have hstep : step img stack k (.exception x) = some (trap img stack k q x) := by
    simp [step, hlost, hrun]
  have hend : ¬ EndsUser tablePage img stack p k (.video (.kernel (.exception x))) := fun hend => hq hend.1
  exact step_leaves h hp (fun _ => by simp) hend hstep

/-- What an event is to a process that it is no call of. -/
theorem userStep_leaves (h : Walled tablePage k) (hp : k.pid p = occupied) {e : UserEvent}
    (hstep : userStep tablePage img stack k e = some k') (hend : ¬ EndsUser tablePage img stack p k e)
    (hcall : fileCallOf e = none) : Leaves p k k' := by
  have hlost := userStep_lost hstep
  cases userStep_by hstep with
  | video e hs =>
    cases e with
    | kernel e =>
      refine step_leaves h hp (fun c => ?_) hend hs
      rintro rfl
      cases hcall
    | switch n =>
      simp only [videoStep, hlost, Bool.false_eq_true, if_false, Option.some.injEq] at hs
      exact hs ▸ ⟨rfl, rfl⟩
    | vidmap screenStart =>
      simp only [videoStep, hlost, Bool.false_eq_true, if_false] at hs
      obtain ⟨q, hrun, rfl⟩ := Option.map_eq_some_iff.mp hs
      simp only [vidmap]
      split_ifs with haccepts hroom
      · exact ⟨rfl, rfl⟩
      · have hq : k.running ≠ some p := fun hp' => hend ⟨hp', haccepts, by omega⟩
        have hopen := openWindow_same tablePage k
        have hopened : Walled tablePage (openWindow tablePage k) :=
          ⟨h.guarded.openWindow, h.housed.same hlost hopen⟩
        have htrap : Leaves p (openWindow tablePage k) (trap img stack (openWindow tablePage k) q .pf) :=
          trap_leaves hopened hlost hp hrun hq .pf
        exact ⟨htrap.fds, htrap.directoryIndex⟩
      · exact ⟨rfl, rfl⟩
  | fault q addr byte hrun haddr hk =>
    exact hk ▸ trap_leaves h hlost hp hrun (fun hp' => hend ⟨hp', haddr⟩) .pf
  | stored q addr byte phys hrun haddr hk =>
    subst hk
    unfold storePhys
    cases frameOf phys with
    | some i => exact ⟨rfl, rfl⟩
    | none =>
      dsimp only
      split_ifs <;> exact ⟨rfl, rfl⟩
  | readTo q fd addr nbytes keyBuf hrun hk => cases hcall
  | getargsTo q addr nbytes hrun hk =>
    subst hk
    unfold deliver
    split_ifs <;> exact ⟨rfl, rfl⟩

/-- An event that is a call, by the call. -/
theorem userStep_call {e : UserEvent} {c : Call}
    (hstep : userStep tablePage img stack k e = some k') (hcall : fileCallOf e = some c) :
    ∃ q, k.running = some q ∧ k'.pcbs = (fileCall img k q c).pcbs ∧
      k'.dev = (fileCall img k q c).dev := by
  cases userStep_by hstep with
  | video e hs =>
    cases e with
    | kernel e =>
      obtain ⟨-, hcase⟩ := step_cases (show step img stack k e = some k' from hs)
      cases hcase with
      | call c' q hrun hk =>
        obtain rfl : c' = c := Option.some.inj hcall
        exact ⟨q, hrun, by rw [hk], by rw [hk]⟩
      | _ => cases hcall
    | _ => cases hcall
  | readTo q fd addr nbytes keyBuf hrun hk =>
    obtain rfl : readCall fd addr nbytes keyBuf = c := Option.some.inj hcall
    subst hk
    refine ⟨q, hrun, ?_⟩
    unfold deliver
    split_ifs <;> exact ⟨rfl, rfl⟩
  | _ => cases hcall

end Events

end Ece391.Kernel
