import Ece391.Kernel.Nesting
import Ece391.Kernel.Returns

/-! Which calls of `execute` return 256 when the timer may come at any point. The mark of an
exception handler is one global, and a call that returns on another terminal may find it
first. As long as the timer leaves the handlers and `halt` alone, no other code runs between
the mark and the test behind `return`. With what the running code has begun completed, the
kernel is then in a state of a run of whole steps, in which every call gets its own mark. -/

namespace Ece391.Kernel

open Function (update)
open Lib FileSys Syscall Support.Runs

/-! ### Completion -/

/-- `halt` behind its first store. -/
def haltRest (img : Image) (stack : ℕ → Stack) (k : State) (p : Fin 6) (status : UInt8) : State :=
  if (k.pcbs p).parentPid = -1 then startShell img stack (Nest.countOff (Nest.unseat k))
  else match (k.pcbs p).parentPcb with
    | none => { k with lost := true }
    | some q => resume { Nest.countOff (Nest.seatParent (Nest.restoreParent k p) p) with
        globalStatus := status } (k.pcbs q).haltFrame

theorem haltRest_vacate (img : Image) (stack : ℕ → Stack) (k : State) (p : Fin 6) (status : UInt8) :
    haltRest img stack (Nest.vacate k p) p status = halt img stack k p status :=
  (halt_eq img stack k p status).symm

/-- The kernel once the running code, which is at the point `p`, is back in a program. -/
def complete (img : Image) (stack : ℕ → Stack) (k : State) (p : Point) : State :=
  if k.lost = true then k
  else match p, k.running with
    | .starting first, _ => startShell img stack (if first then clearScreen k else k)
    | .trapped, some q => halt img stack k q 1
    | .halting status, some q => haltRest img stack k q status
    | .unseated, _ => startShell img stack (Nest.countOff k)
    | .restarting, _ => startShell img stack k
    | .leaving status act, some q =>
      resume { Nest.countOff (Nest.seatParent k q) with globalStatus := status } act
    | .seated status act, _ => resume { Nest.countOff k with globalStatus := status } act
    | .returning act, _ => resume k act
    | _, _ => k

def Nest.finish (img : Image) (stack : ℕ → Stack) (s : Nest) : State :=
  complete img stack s.kernel (s.point s.kernel.currScheduler)

/-- More was noted down, and no exception. -/
def QuietLog (k k' : State) : Prop :=
  ∃ os, k'.trace.log = k.trace.log ++ os ∧ ∀ act, .trapped act ∉ os

section Finish
variable {img : Image} {stack : ℕ → Stack} {s s' : Nest} {k k' : State} {p : Fin 6}

theorem QuietLog.trans {k'' : State} (h : QuietLog k k') (h' : QuietLog k' k'') : QuietLog k k'' := by
  obtain ⟨os, hos, hn⟩ := h
  obtain ⟨os', hos', hn'⟩ := h'
  refine ⟨os ++ os', by rw [hos', hos, List.append_assoc], fun act hact => ?_⟩
  rcases List.mem_append.mp hact with hact | hact
  · exact hn act hact
  · exact hn' act hact

theorem QuietLog.of_eq (h : k'.trace.log = k.trace.log) : QuietLog k k' := ⟨[], by simpa using h, by simp⟩

theorem Refused.quietLog (h : Refused k k') : QuietLog k k' := ⟨_, h.log, by simp⟩

theorem Started.quietLog (h : Started k k') : QuietLog k k' := by
  rcases h with ⟨slot, he⟩ | ⟨-, hr | hf⟩
  · rcases he.outcome with ⟨-, hlog⟩ | ⟨⟨_, hlog⟩, -⟩
    · exact ⟨_, hlog, by simp⟩
    · exact ⟨_, hlog, by simp⟩
  · exact hr.quietLog
  · exact ⟨_, hf.log, by simp⟩

theorem startShell_quietLog (img : Image) (stack : ℕ → Stack) (k : State) :
    QuietLog k (startShell img stack k) :=
  (startShell_started img stack k).quietLog

theorem starting_quietLog (img : Image) (stack : ℕ → Stack) (k : State) (first : Bool) :
    QuietLog k (startShell img stack (if first then clearScreen k else k)) := by
  refine QuietLog.trans (.of_eq ?_) (startShell_quietLog img stack _)
  cases first
  · rfl
  · exact (clearScreen_log k).trans (List.append_nil _)

theorem resume_quietLog (k : State) (act : ℕ) : QuietLog k (resume k act) := by
  rw [resume_eq]
  exact ⟨_, rfl, by simp⟩

theorem haltRest_quietLog (img : Image) (stack : ℕ → Stack) (k : State) (p : Fin 6) (status : UInt8) :
    QuietLog k (haltRest img stack k p status) := by
  unfold haltRest
  split_ifs with hroot
  · exact startShell_quietLog img stack _
  · cases (k.pcbs p).parentPcb with
    | none => exact .of_eq rfl
    | some q =>
      have hrestored : QuietLog k { Nest.countOff (Nest.seatParent (Nest.restoreParent k p) p) with
          globalStatus := status } :=
        ⟨[.mapped (State.userEntry (k.pcbs p).parentPid)], rfl, by simp⟩
      exact hrestored.trans (resume_quietLog _ _)

/-- What is still to be done notes down no exception. -/
theorem complete_quietLog (img : Image) (stack : ℕ → Stack) (k : State) (p : Point) :
    QuietLog k (complete img stack k p) := by
  unfold complete
  split_ifs with hlost
  · exact .of_eq rfl
  split
  · exact starting_quietLog img stack k _
  · rename_i q _
    rw [← haltRest_vacate]
    exact QuietLog.trans (.of_eq rfl) (haltRest_quietLog img stack (Nest.vacate k q) q 1)
  · exact haltRest_quietLog img stack k _ _
  · exact startShell_quietLog img stack _
  · exact startShell_quietLog img stack _
  · exact resume_quietLog _ _
  · exact resume_quietLog _ _
  · exact resume_quietLog _ _
  · exact .of_eq rfl

@[simp] theorem complete_user (img : Image) (stack : ℕ → Stack) (k : State) :
    complete img stack k .user = k := by
  simp [complete]

theorem complete_lost {img : Image} {stack : ℕ → Stack} {k : State} (h : k.lost = true) (p : Point) :
    complete img stack k p = k := if_pos h

end Finish

/-! ### Runs in which the timer spares the handlers -/

/-- The timer interrupts a program, or the start of the very first shell; and no root takes an
exception. -/
def SparesHandlers (img : Image) (stack : ℕ → Stack) (s : Nest) : NestEvent → Prop
  | .pit => s.point s.kernel.currScheduler = .user ∨ s.point s.kernel.currScheduler = .starting true
  | .go => True
  | .program e => SparesRoots img stack s.kernel e

instance decidableSparesHandlers (img : Image) (stack : ℕ → Stack) (s : Nest) :
    (e : NestEvent) → Decidable (SparesHandlers img stack s e)
  | .pit => inferInstanceAs (Decidable (_ ∨ _))
  | .go => isTrue trivial
  | .program e => inferInstanceAs (Decidable (SparesRoots img stack s.kernel e))

/-- The kernel can be reached by whole steps in which no root takes an exception. -/
def ReachedWhole (img : Image) (stack : ℕ → Stack) (k₀ k : State) : Prop :=
  ∃ es, Along (step img stack) (SparesRoots img stack) k₀ es ∧ runs img stack k₀ es = some k

/-- The other terminals are in programs, and with the code under way completed the kernel can be
reached by whole steps. -/
structure Whole (img : Image) (stack : ℕ → Stack) (k₀ : State) (s : Nest) : Prop where
  reached : ReachedWhole img stack k₀ (s.finish img stack)
  others : ∀ t ≠ s.kernel.currScheduler, s.point t = .user
  first : s.kernel.lost = false → s.point s.kernel.currScheduler = .starting true →
    s.kernel.running = none ∧ s.kernel.currScheduler = 0

section Whole
variable {img : Image} {stack : ℕ → Stack} {s s' : Nest} {k₀ k k' : State} {q : Fin 6} {p : Point}

theorem ReachedWhole.snoc (h : ReachedWhole img stack k₀ k) {e : Event}
    (he : SparesRoots img stack k e) (hs : step img stack k e = some k') :
    ReachedWhole img stack k₀ k' := by
  obtain ⟨es, hg, hr⟩ := h
  refine ⟨es ++ [e], along_append.mpr ⟨hg, fun m hm => ?_⟩, run_snoc hr hs⟩
  obtain rfl : m = k := Option.some.inj (hm.symm.trans hr)
  exact ⟨he, fun _ _ => trivial⟩

theorem finish_moveTo (img : Image) (stack : ℕ → Stack) (s : Nest) (p : Point) :
    (s.moveTo p).finish img stack = complete img stack s.kernel p := by
  have hpoint := s.moveTo_point p
  rw [Nest.finish]
  exact congrArg (complete img stack s.kernel) hpoint

/-- The running code is at a point and the other terminals are in their programs. -/
theorem whole_moveTo (s : Nest) (hothers : ∀ t ≠ s.kernel.currScheduler, s.point t = .user)
    (hp : p = .starting true → s.kernel.running = none ∧ s.kernel.currScheduler = 0)
    (hreached : ReachedWhole img stack k₀ (complete img stack s.kernel p)) :
    Whole img stack k₀ (s.moveTo p) := by
  refine ⟨?_, fun t ht => ?_, fun _ hfirst => ?_⟩
  · rwa [finish_moveTo]
  · exact (s.moveTo_other p ht).trans (hothers t ht)
  · exact hp ((s.moveTo_point p).symm.trans hfirst)

theorem Whole.moves (h : Whole img stack k₀ s) (hcs : k.currScheduler = s.kernel.currScheduler)
    (hp : p = .starting true → k.running = none ∧ k.currScheduler = 0)
    (hreached : ReachedWhole img stack k₀ (complete img stack k p)) :
    Whole img stack k₀ ({ s with kernel := k }.moveTo p) :=
  whole_moveTo { s with kernel := k } (fun t ht => h.others t (hcs ▸ ht)) hp hreached

/-- The scheduler uses NULL or the registers of another terminal in this step, which brings
neither an exception nor a return of 256. -/
structure Stops (s s' : Nest) : Prop where
  stopped : s'.nullAccess = true ∨ s'.strayed = true
  log : ∃ os, s'.kernel.trace.log = s.kernel.trace.log ++ os ∧ ∀ o ∈ os, Neutral o
  point : s'.point s'.kernel.currScheduler = .user → s.point s.kernel.currScheduler = .user

theorem Whole.pit (h : Whole img stack k₀ s) (hlost : s.kernel.lost = false)
    (hg : SparesHandlers img stack s .pit) : Stops s s.pit ∨ Whole img stack k₀ s.pit := by
  have hreached := h.reached
  unfold Nest.finish at hreached
  unfold Nest.pit
  rcases hg with huser | hfirst
  · -- the tick is a whole step of the kernel
    rw [huser, complete_user] at hreached
    have htick : ReachedWhole img stack k₀ (scheduler img stack s.kernel) :=
      hreached.snoc (e := .tick) (fun htraps => absurd htraps id) (by simp [step, hlost])
    have hothers : ∀ t, s.point t = .user := by
      intro t
      by_cases ht : t = s.kernel.currScheduler
      · exact ht ▸ huser
      · exact h.others t ht
    cases hrun : s.kernel.running with
    | none =>
      simp only [scheduler, hrun] at htick
      dsimp only
      split_ifs with hcs
      · refine .inr (h.moves rfl (fun _ => ⟨hrun, hcs⟩) ?_)
        simpa [complete, hlost, hcs] using htick
      · exact .inl ⟨.inl rfl, ⟨[], (List.append_nil _).symm, by simp⟩, id⟩
    | some p =>
      simp only [scheduler, hrun] at htick
      dsimp only
      cases hnext : (nextTurn s.kernel).running with
      | none =>
        rw [hnext] at htick
        refine .inr (whole_moveTo _ (fun t _ => hothers t) (by simp) ?_)
        simpa [complete, hlost, nextTurn] using htick
      | some q =>
        rw [hnext] at htick
        dsimp only
        split_ifs with hown
        · refine .inr ⟨?_, fun t _ => hothers t, fun _ hfirst => ?_⟩
          · rw [Nest.finish, hothers, complete_user]
            exact htick
          · cases (hothers _).symm.trans hfirst
        · exact .inl ⟨.inr rfl, ⟨[], (List.append_nil _).symm, by simp⟩, fun _ => huser⟩
  · obtain ⟨hrun, hcs⟩ := h.first hlost hfirst
    rw [hrun]
    dsimp only
    rw [if_pos hcs]
    exact .inr (h.moves rfl (fun _ => ⟨hrun, hcs⟩) (hfirst ▸ hreached))

/-- A kernel that is lost stays where it is. -/
theorem Whole.loses (h : Whole img stack k₀ s) (hcs : k.currScheduler = s.kernel.currScheduler)
    (hlost : k.lost = true) (hk : ReachedWhole img stack k₀ k) :
    Whole img stack k₀ { s with kernel := k } := by
  refine ⟨?_, fun t ht => h.others t (hcs ▸ ht), fun hfalse => ?_⟩
  · rw [Nest.finish, complete_lost hlost]
    exact hk
  · cases hlost.symm.trans hfalse

theorem Whole.startFrom (h : Whole img stack k₀ s) {first : Bool}
    (hreached : ReachedWhole img stack k₀
      (startShell img stack (if first then clearScreen s.kernel else s.kernel))) :
    Stops s (s.startFrom img stack first) ∨ Whole img stack k₀ (s.startFrom img stack first) := by
  simp only [Nest.startFrom, startShell] at hreached ⊢
  obtain ⟨k, hk, hcs, hlog⟩ : ∃ k, (if first then clearScreen s.kernel else s.kernel) = k ∧
      k.currScheduler = s.kernel.currScheduler ∧ k.trace.log = s.kernel.trace.log := by
    cases first
    · exact ⟨_, rfl, rfl, rfl⟩
    · exact ⟨_, rfl, (clearScreen_quiet s.kernel).currScheduler,
        (clearScreen_log s.kernel).trans (List.append_nil _)⟩
  rw [hk] at hreached ⊢
  have hcases := execute_cases img stack k (some shellName)
  have hcs' := (execute_kept img stack k (some shellName)).currScheduler.trans hcs
  rcases hexec : execute img stack k (some shellName) with ⟨k', r⟩
  rw [hexec] at hcases hreached hcs'
  rcases hcases with ⟨rfl, hr⟩ | ⟨rfl, -, -⟩ | ⟨rfl, -, -⟩
  · refine .inl ⟨.inl rfl, ⟨_, hr.log.trans (by rw [hlog]), by simp [Neutral]⟩, fun huser => ?_⟩
    exact (congrArg s.point hcs').symm.trans huser
  · exact .inr (h.loses (k := { k' with lost := true }) hcs' rfl hreached)
  · exact .inr (h.moves hcs' (by simp) (by simpa using hreached))

theorem Whole.haltFrom (h : Whole img stack k₀ s) (hlost : s.kernel.lost = false)
    (hrun : s.kernel.running = some q) {status : UInt8}
    (hreached : ReachedWhole img stack k₀ (haltRest img stack s.kernel q status)) :
    Whole img stack k₀ (s.haltFrom q status) := by
  unfold haltRest at hreached
  unfold Nest.haltFrom
  split_ifs at hreached ⊢ with hroot
  · refine h.moves rfl (by simp) ?_
    simpa [complete, hlost, Nest.unseat] using hreached
  · cases hr : (s.kernel.pcbs q).parentPcb with
    | none =>
      rw [hr] at hreached
      exact h.loses (k := { s.kernel with lost := true }) rfl rfl hreached
    | some r =>
      rw [hr] at hreached
      have hrunning : (Nest.restoreParent s.kernel q).running = some q := hrun
      have hlost' : (Nest.restoreParent s.kernel q).lost = false := hlost
      refine h.moves rfl (by simp) ?_
      simpa only [complete, hlost', hrunning, Bool.false_eq_true, if_false] using hreached

/-- The running code goes on with what it has begun. -/
theorem Whole.go (h : Whole img stack k₀ s) (hlost : s.kernel.lost = false)
    (hs : s.go img stack = some s') : Stops s s' ∨ Whole img stack k₀ s' := by
  have hreached := h.reached
  unfold Nest.finish at hreached
  unfold Nest.go at hs
  cases hpoint : s.point s.kernel.currScheduler with
  | user => simp [hpoint] at hs
  | starting first =>
    obtain rfl : s.startFrom img stack first = s' := by simpa [hpoint] using hs
    refine h.startFrom ?_
    simpa [complete, hlost, hpoint] using hreached
  | trapped =>
    cases hrun : s.kernel.running with
    | none => simp [hpoint, hrun] at hs
    | some q =>
      obtain rfl : { s with kernel := Nest.vacate s.kernel q }.moveTo (.halting 1) = s' := by
        simpa [hpoint, hrun] using hs
      have hrunning : (Nest.vacate s.kernel q).running = some q := hrun
      have hlost' : (Nest.vacate s.kernel q).lost = false := hlost
      refine .inr (h.moves rfl (by simp) ?_)
      simp only [complete, hlost, hlost', hpoint, hrun, hrunning, Bool.false_eq_true, if_false] at hreached ⊢
      rwa [haltRest_vacate]
  | halting status =>
    cases hrun : s.kernel.running with
    | none => simp [hpoint, hrun] at hs
    | some q =>
      obtain rfl : s.haltFrom q status = s' := by simpa [hpoint, hrun] using hs
      refine .inr (h.haltFrom hlost hrun ?_)
      simpa [complete, hlost, hpoint, hrun] using hreached
  | unseated =>
    obtain rfl : { s with kernel := Nest.countOff s.kernel }.moveTo .restarting = s' := by
      simpa [hpoint] using hs
    refine .inr (h.moves rfl (by simp) ?_)
    simpa [complete, hlost, hpoint, Nest.countOff] using hreached
  | restarting =>
    obtain rfl : { s with kernel := startShell img stack s.kernel }.moveTo .user = s' := by
      simpa [hpoint] using hs
    refine .inr (h.moves (startShell_kept img stack s.kernel).currScheduler (by simp) ?_)
    simpa [complete, hlost, hpoint] using hreached
  | leaving status act =>
    cases hrun : s.kernel.running with
    | none => simp [hpoint, hrun] at hs
    | some q =>
      obtain rfl : { s with kernel := Nest.seatParent s.kernel q }.moveTo (.seated status act) = s' := by
        simpa [hpoint, hrun] using hs
      refine .inr (h.moves rfl (by simp) ?_)
      simpa [complete, hlost, hpoint, hrun, Nest.seatParent] using hreached
  | seated status act =>
    obtain rfl : { s with kernel := { Nest.countOff s.kernel with globalStatus := status } }.moveTo
        (.returning act) = s' := by
      simpa [hpoint] using hs
    refine .inr (h.moves rfl (by simp) ?_)
    simpa [complete, hlost, hpoint, Nest.countOff] using hreached
  | returning act =>
    obtain rfl : { s with kernel := resume s.kernel act }.moveTo .user = s' := by
      simpa [hpoint] using hs
    refine .inr (h.moves (by rw [resume_eq]) (by simp) ?_)
    simpa [complete, hlost, hpoint] using hreached

/-- A call of the running program is a whole step of the kernel, once it is completed. -/
theorem Whole.program (h : Whole img stack k₀ s) (hlost : s.kernel.lost = false)
    (huser : s.point s.kernel.currScheduler = .user) (hrun : s.kernel.running = some q) {e : Event}
    (hspare : SparesRoots img stack s.kernel e) (hs : s.program img stack q e = some s') :
    Whole img stack k₀ s' := by
  have hreached := h.reached
  rw [Nest.finish, huser, complete_user] at hreached
  have hstep : ∀ k', step img stack s.kernel e = some k' → ReachedWhole img stack k₀ k' :=
    fun k' hk' => hreached.snoc hspare hk'
  cases e with
  | execute command =>
    obtain rfl := Option.some.inj hs
    refine h.moves (executeBy_kept img stack s.kernel q command).currScheduler (by simp) ?_
    rw [complete_user]
    exact hstep _ (by simp [step, hlost, hrun])
  | halt status =>
    obtain rfl := Option.some.inj hs
    set k₁ := s.kernel.note (.ended (s.kernel.trace.born q) status)
    have hrunning : (Nest.vacate k₁ q).running = some q := hrun
    have hlost' : (Nest.vacate k₁ q).lost = false := hlost
    refine h.moves rfl (by simp) ?_
    simp only [complete, hlost', hrunning, Bool.false_eq_true, if_false, haltRest_vacate]
    exact hstep _ (by simp [step, hlost, hrun, k₁])
  | exception x =>
    obtain rfl := Option.some.inj hs
    have hrunning : (raise s.kernel q x).running = some q := hrun
    have hlost' : (raise s.kernel q x).lost = false := hlost
    refine h.moves rfl (by simp) ?_
    simp only [complete, hlost', hrunning, Bool.false_eq_true, if_false]
    exact hstep _ (by simp [step, hlost, hrun, trap])
  | tick => cases hs
  | call c =>
    obtain rfl := Option.some.inj hs
    refine h.moves rfl (by simp) ?_
    rw [complete_user]
    exact hstep _ (by simp [step, hlost, hrun])

/-- What the observer sees in every state: who gets 256 has lost its child to an exception, and
once the running code is back in a program the reverse holds too. -/
structure Told (s : Nest) : Prop where
  trapped : ∀ act, .returned act 256 ∈ s.kernel.trace.log → .trapped act ∈ s.kernel.trace.log
  returned : s.point s.kernel.currScheduler = .user →
    ∀ act, .trapped act ∈ s.kernel.trace.log → .returned act 256 ∈ s.kernel.trace.log

theorem Whole.told (h : Whole img stack k₀ s) (hb : State.Boot k₀) : Told s := by
  obtain ⟨es, hg, hr⟩ := h.reached
  have hattributed := attributed_of_run hb hg hr
  refine ⟨fun act hact => ?_, fun huser act hact => ?_⟩
  · obtain ⟨os, hlog, hos⟩ := complete_quietLog img stack s.kernel (s.point s.kernel.currScheduler)
    have hlate := (hattributed.log act).mp (hlog ▸ List.mem_append_left os hact)
    rw [Nest.finish, hlog] at hlate
    exact (List.mem_append.mp hlate).resolve_right (hos act)
  · rw [Nest.finish, huser, complete_user] at hattributed
    exact (hattributed.log act).mpr hact

theorem Stops.told (h : Stops s s') (hs : Told s) : Told s' := by
  obtain ⟨os, hlog, hos⟩ := h.log
  refine ⟨fun act hact => ?_, fun huser act hact => ?_⟩
  · rw [hlog] at hact ⊢
    refine List.mem_append_left _ (hs.trapped act ((List.mem_append.mp hact).resolve_right ?_))
    exact fun hmem => absurd rfl (hos _ hmem)
  · rw [hlog] at hact ⊢
    refine List.mem_append_left _ (hs.returned (h.point huser) act
      ((List.mem_append.mp hact).resolve_right ?_))
    exact fun hmem => hos _ hmem

/-- One step of such a run. -/
theorem Whole.step (h : Whole img stack k₀ s) {e : NestEvent} (hg : SparesHandlers img stack s e)
    (hs : nestStep img stack s e = some s') : Stops s s' ∨ Whole img stack k₀ s' := by
  unfold nestStep at hs
  split_ifs at hs with hstop
  have hlost : s.kernel.lost = false := by
    rw [← Bool.not_eq_true]
    exact fun hlost => hstop (.inr (.inr hlost))
  cases e with
  | pit =>
    obtain rfl := Option.some.inj hs
    exact h.pit hlost hg
  | go => exact h.go hlost hs
  | program e =>
    cases hpoint : s.point s.kernel.currScheduler with
    | user =>
      cases hrun : s.kernel.running with
      | none => simp [hpoint, hrun] at hs
      | some q =>
        have hprogram : s.program img stack q e = some s' := by simpa [hpoint, hrun] using hs
        exact .inr (h.program hlost hpoint hrun hg hprogram)
    | _ => simp [hpoint] at hs

end Whole

theorem Nest.Boot.whole {s : Nest} (h : s.Boot) (img : Image) (stack : ℕ → Stack) :
    Whole img stack s.kernel s := by
  refine ⟨⟨[], trivial, ?_⟩, fun t _ => h.point t, fun _ hfirst => ?_⟩
  · rw [Nest.finish, h.point, complete_user]
    rfl
  · cases (h.point _).symm.trans hfirst

/-- The child of the first shell divides by zero while shells start on the other terminals; the
next child ends by itself. -/
def trappedChild : List NestEvent :=
  [.pit, .go, .program (.execute (some shellName)), .pit, .go, .pit, .go, .pit,
    .program (.exception .de), .go, .go, .go, .go, .go, .program (.execute (some shellName)),
    .program (.halt 0), .go, .go, .go, .go]

/-- The first shell divides by zero and is started again; its first child ends by itself. -/
def trappedRoot : List NestEvent :=
  [.pit, .go, .program (.exception .de), .go, .go, .go, .go, .program (.execute (some shellName)),
    .program (.halt 0), .go, .go, .go, .go]

/-- Shells run on all terminals, and a child on each of the first two. That of terminal 0 divides
by zero, and the timer comes before its handler has called `halt`; the child of terminal 1 ends by
itself. -/
def interruptedHandler : List NestEvent :=
  [.pit, .go, .pit, .go, .program (.execute (some shellName)), .pit, .go, .pit,
    .program (.execute (some shellName)), .program (.exception .de), .pit, .program (.halt 0), .go, .go,
    .go, .go]

end Ece391.Kernel
