import Ece391.Kernel.Chains

/-! Which call of `execute` a process returns to, and with what. The frame saved in
the PCB of a parent is always that of the call that started the child running above
it. The value that call returns is 256 or 0: the status given to `halt` never gets
there, and the mark for 256 is one global for all terminals. -/

namespace Ece391.Kernel

open Function (update)
open FileSys Syscall Support Support.Runs

/-! ### Frames -/

/-- Every process was created by the call whose frame its parent keeps. -/
structure Frames (k : State) : Prop where
  frame : ∀ p q : Fin 6, k.pid p = occupied → (k.pcbs p).parentPcb = some q →
    (k.pcbs q).haltFrame = k.trace.born p
  spawned : ∀ p : Fin 6, k.pid p = occupied → ∃ fds entryPoint,
    .spawned (k.trace.born p) p (k.pcbs p).parentPcb fds entryPoint ∈ k.trace.log

section Frames
variable {k k' : State} {st : Chains}

theorem Forest.mem_of_occupied (h : Forest k st) {p : Fin 6} (hp : k.pid p = occupied) :
    ∃ t, p ∈ st t := by
  by_contra hno
  rw [h.vacant_eq p (not_exists.mp hno)] at hp
  exact absurd hp (by decide)

/-- The running process of a terminal is nobody's parent. -/
theorem Forest.running_childless (h : Forest k st) {p r : Fin 6} (hr : k.running = some r)
    (hp : k.pid p = occupied) : (k.pcbs p).parentPcb ≠ some r := by
  intro hparent
  obtain ⟨t, ht⟩ := h.mem_of_occupied hp
  obtain ⟨rest, hst, -⟩ := h.running_eq hr
  obtain ⟨l, m, hl⟩ := List.append_of_mem ht
  have hnext : some r = m.head? := hparent.symm.trans (linked_next (hl ▸ h.linked t))
  have hm : r ∈ m := List.mem_of_mem_head? hnext.symm
  obtain rfl : t = k.currScheduler := h.apart t k.currScheduler r (by simp [hl, hm]) (by simp [hst])
  have hnodup := linked_nodup (h.linked k.currScheduler)
  -- `r` is the first node of the chain and also lies behind `p`
  cases l with
  | nil =>
    obtain ⟨rfl, -⟩ : p = r ∧ m = rest := by simpa [hl] using hst
    rw [hl] at hnodup
    exact (List.nodup_cons.mp hnodup).1 hm
  | cons a l =>
    obtain ⟨rfl, -⟩ : a = r ∧ l ++ p :: m = rest := by simpa [hl] using hst
    rw [hl] at hnodup
    exact (List.nodup_cons.mp hnodup).1 (by simp [hm])

theorem Frames.congr (h : Frames k) (os : List Obs) (hpid : k'.pid = k.pid)
    (hpcbs : ∀ p, (k'.pcbs p).parentPcb = (k.pcbs p).parentPcb ∧
      (k'.pcbs p).haltFrame = (k.pcbs p).haltFrame)
    (hborn : k'.trace.born = k.trace.born) (hlog : k'.trace.log = k.trace.log ++ os) : Frames k' := by
  refine ⟨fun p q hp hq => ?_, fun p hp => ?_⟩
  · rw [(hpcbs q).2, hborn]
    exact h.frame p q (by rwa [hpid] at hp) (by rwa [(hpcbs p).1] at hq)
  · obtain ⟨fds, ep, hmem⟩ := h.spawned p (by rwa [hpid] at hp)
    refine ⟨fds, ep, ?_⟩
    rw [hborn, (hpcbs p).1, hlog]
    exact List.mem_append_left _ hmem

/-- A process less. -/
theorem Frames.free (h : Frames k) (os : List Obs) {p : Fin 6} (hpid : k'.pid = update k.pid p vacant)
    (hpcbs : ∀ p, (k'.pcbs p).parentPcb = (k.pcbs p).parentPcb ∧
      (k'.pcbs p).haltFrame = (k.pcbs p).haltFrame)
    (hborn : k'.trace.born = k.trace.born) (hlog : k'.trace.log = k.trace.log ++ os) : Frames k' := by
  have hold {i : Fin 6} (hi : k'.pid i = occupied) : k.pid i = occupied := by
    have hip : i ≠ p := by
      rintro rfl
      rw [hpid, Function.update_self] at hi
      exact absurd hi (by decide)
    rwa [hpid, update_pid_of_ne hip] at hi
  refine ⟨fun i q hi hq => ?_, fun i hi => ?_⟩
  · rw [(hpcbs q).2, hborn]
    exact h.frame i q (hold hi) (by rwa [(hpcbs i).1] at hq)
  · obtain ⟨fds, ep, hmem⟩ := h.spawned i (hold hi)
    refine ⟨fds, ep, ?_⟩
    rw [hborn, (hpcbs i).1, hlog]
    exact List.mem_append_left _ hmem

theorem Frames.refused (h : Frames k) (hr : Refused k k') : Frames k' :=
  h.congr _ hr.pid (fun p => by rw [hr.pcbs]; exact ⟨rfl, rfl⟩) hr.born hr.log

theorem Frames.faulted (h : Frames k) (hf : Faulted k k') : Frames k' :=
  h.congr _ hf.pid (fun p => by rw [hf.pcbs]; exact ⟨rfl, rfl⟩) hf.born hf.log

theorem Frames.raised (h : Frames k) (p : Fin 6) (e : Exception) : Frames (raise k p e) :=
  h.congr [.trapped (k.trace.born p)] rfl (fun _ => ⟨rfl, rfl⟩) rfl rfl

theorem Frames.entered (h : Frames k) (hc : Chained k st) {slot : Fin 6} (he : Entered k k' slot)
    (hlost : k'.lost = false) : Frames k' := by
  obtain ⟨⟨ep, hlog⟩, hframe⟩ := he.outcome.resolve_left (by simp [hlost])
  have hv := findPid_eq_some he.found
  have hparent : (k'.pcbs slot).parentPcb = k.running :=
    congrArg (fun l : ℤ × ℤ × Option (Fin 6) => l.2.2) (he.links_slot (hc.running_ne hv))
  have hold {i : Fin 6} (hi : i ≠ slot) (hocc : k'.pid i = occupied) : k.pid i = occupied := by
    rwa [he.pid, update_pid_of_ne hi] at hocc
  refine ⟨fun p q hp hq => ?_, fun p hp => ?_⟩
  · by_cases hps : p = slot
    · subst hps
      rw [hparent] at hq
      rw [hframe q, if_pos hq, he.born, Function.update_self]
    · rw [(Pcb.links_eq (he.links_other p hps)).2.2] at hq
      have hq' : k.running ≠ some q := fun hr => hc.running_childless hr (hold hps hp) hq
      rw [hframe q, if_neg hq', he.born, Function.update_of_ne hps]
      exact h.frame p q (hold hps hp) hq
  · by_cases hps : p = slot
    · subst hps
      refine ⟨initFds (k.pcbs p).fileDescriptor, ep, ?_⟩
      rw [he.born, Function.update_self, hparent, hlog]
      simp
    · obtain ⟨fds, ep', hmem⟩ := h.spawned p (hold hps hp)
      refine ⟨fds, ep', ?_⟩
      rw [he.born, Function.update_of_ne hps, (Pcb.links_eq (he.links_other p hps)).2.2, hlog]
      exact List.mem_append_left _ hmem

theorem Frames.started (h : Frames k) (hc : Chained k st) (hs : Started k k')
    (hlost : k'.lost = false) : Frames k' := by
  rcases hs with ⟨slot, he⟩ | ⟨hl, -⟩
  · exact h.entered hc he hlost
  · simp [hl] at hlost

theorem Frames.ended (h : Frames k) (hc : Chained k st) {p : Fin 6} (hp : k.running = some p)
    (he : Ended k p k') (hlost : k'.lost = false) : Frames k' := by
  have hpid := hc.pid_eq k.currScheduler p (hc.running_mem hp)
  cases he with
  | root hroot hs =>
    have hfreed : Frames (freed k p) :=
      h.free [] (p := p) (by rw [← hpid]; rfl) (fun _ => ⟨rfl, rfl⟩) rfl (by simp [freed])
    obtain ⟨_, hchain⟩ := hc.freed hp hroot
    exact hfreed.started hchain hs hlost
  | child q hchild hq hr =>
    exact h.free _ (p := p) (by rw [← hpid]; exact hr.pid)
      (fun i => ⟨(Pcb.links_eq (hr.links i)).2.2, hr.haltFrame i⟩) hr.born hr.log
  | orphan hchild hq => exact absurd ((hc.parent_none hp).mpr hq) hchild

theorem Frames.step {img : Image} {stack : ℕ → Stack} {e : Event} (h : Frames k)
    (hc : Chained k st) (hstep : step img stack k e = some k') (hlost : k'.lost = false) :
    Frames k' := by
  obtain ⟨-, hcase⟩ := step_cases hstep
  clear hstep
  cases hcase with
  | firstShell hrun hcs hs =>
    have hq := clearScreen_quiet k
    have hclear : Frames (clearScreen k) :=
      h.congr [] hq.pid (fun p => by rw [hq.pcbs]; exact ⟨rfl, rfl⟩) hq.born (clearScreen_log k)
    exact hclear.started hc.cleared hs hlost
  | noProcess hrun hk => simp [hk] at hlost
  | newShell hrun hnext hs =>
    exact Frames.started (k := nextTurn k) ⟨h.frame, h.spawned⟩ hc.turned hs hlost
  | turn p hrun hnext hk =>
    subst hk
    exact h.congr [.mapped (State.userEntry (k.pcbs p).pid)] rfl (fun _ => ⟨rfl, rfl⟩) rfl rfl
  | refused command p hrun hr => exact h.refused hr
  | entered command p slot hrun hadm he => exact h.entered hc he hlost
  | faulted command p k₁ hrun hadm hf he =>
    have hrun₁ := hf.running_raise hrun (e := .pf)
    exact ((h.faulted hf).raised p .pf).ended ((hc.faulted hf).raised p .pf) hrun₁ he hlost
  | halt status p hrun he =>
    have hframes : Frames (k.note (.ended (k.trace.born p) status)) :=
      h.congr [.ended (k.trace.born p) status] rfl (fun _ => ⟨rfl, rfl⟩) rfl rfl
    exact hframes.ended (hc.note _) hrun he hlost
  | exception e p hrun he => exact (h.raised p e).ended (hc.raised p e) hrun he hlost
  | call c p hrun hk =>
    subst hk
    refine h.congr _ rfl (fun i => ⟨?_, ?_⟩) rfl rfl
    · exact update_proj Pcb.parentPcb k.pcbs p i rfl
    · exact update_proj Pcb.haltFrame k.pcbs p i rfl

end Frames

/-- Chains and frames of every reachable state. -/
structure Framed (k : State) : Prop where
  chained : ∃ st, Chained k st
  frames : k.lost = false → Frames k

theorem Framed.step {img : Image} {stack : ℕ → Stack} {k k' : State} {e : Event} (h : Framed k)
    (hstep : step img stack k e = some k') : Framed k' := by
  obtain ⟨⟨st, hc⟩, hf⟩ := h
  exact ⟨hc.step hstep, fun hlost => (hf (step_cases hstep).1).step hc hstep hlost⟩

theorem Boot.framed {k : State} (h : State.Boot k) : Framed k := by
  refine ⟨⟨_, Boot.chained h⟩, fun _ => ?_⟩
  have hnone (p : Fin 6) : k.pid p ≠ occupied := by
    rw [h.pid p]
    decide
  exact ⟨fun p q hp => absurd hp (hnone p), fun p hp => absurd hp (hnone p)⟩

theorem framed_of_run {img : Image} {stack : ℕ → Stack} {k₀ k : State} {es : List Event}
    (hb : State.Boot k₀) (hr : runs img stack k₀ es = some k) : Framed k :=
  invariant_run Framed (fun _ _ _ hs h => h.step hs) hr (Boot.framed hb)

/-! ### What `execute` returns -/

/-- When a process with a parent calls `halt`, the call of `execute` that started it
returns, and it returns the status exactly when the status is 0 and no exception mark
is pending. -/
theorem execute_returns_status_iff (img : Image) (stack : ℕ → Stack) (k₀ k k' : State)
    (es : List Event) (hb : State.Boot k₀) (hr : runs img stack k₀ es = some k) (p q : Fin 6)
    (hrun : k.running = some p) (hparent : (k.pcbs p).parentPcb = some q) (status : UInt8)
    (hhalt : step img stack k (.halt status) = some k') :
    ∃ (act : ℕ) (value : ℤ),
      (∃ fds entryPoint, .spawned act p (some q) fds entryPoint ∈ k.trace.log) ∧
      k'.running = some q ∧
      k'.trace.log = k.trace.log ++ [.ended act status, .mapped (State.userEntry q),
        .returned act value] ∧
      (value = status.toNat ↔ status = 0 ∧ k.globalHalt ≠ 1) := by
  obtain ⟨⟨st, hc⟩, hf⟩ := framed_of_run hb hr
  obtain ⟨hlost, hcase⟩ := step_cases hhalt
  have hframes := hf hlost
  have hmem := hc.running_mem hrun
  have hocc := hc.occupied_eq k.currScheduler p hmem
  have hpid : (k.pcbs p).parentPid = q := by
    rw [hc.parent_eq k.currScheduler p hmem, hparent]
    rfl
  cases hcase with
  | halt _ p' hrun' he =>
    obtain rfl : p' = p := Option.some.inj (hrun'.symm.trans hrun)
    have hret : ReturnedTo (k.note (.ended (k.trace.born p') status)) k' p' q := by
      cases he with
      | root hroot hs =>
        rw [show (k.note _).pcbs = k.pcbs from rfl, hpid] at hroot
        omega
      | child q' hchild hq hr =>
        obtain rfl : q' = q := Option.some.inj (hq.symm.trans hparent)
        exact hr
      | orphan hchild hq => exact absurd (hq.symm.trans hparent) (by simp)
    refine ⟨k.trace.born p', if k.globalHalt = 1 then 256 else 0, ?_, ?_, ?_, ?_⟩
    · rw [← hparent]
      exact hframes.spawned p' hocc
    · exact hret.running
    · rw [hret.log, show (k.note _).pcbs = k.pcbs from rfl, hpid, hframes.frame p' q hocc hparent]
      exact List.append_assoc _ _ _
    · have hlt := status.toNat_lt
      split_ifs with hg
      · simp only [hg, not_true_eq_false, and_false, iff_false, ne_eq]
        omega
      · simp only [hg, ne_eq, not_false_eq_true, and_true, ← UInt8.toNat_inj, UInt8.toNat_zero]
        omega

/-- A second shell that ends with 0 returns 0 to the first. -/
theorem execute_returns_status_zero : ∃ k act,
    shellRuns [.tick, .execute (some shellName), .halt 0] = some k ∧
      .returned act 0 ∈ k.trace.log := by
  obtain ⟨k, hk, hrun, hparent, hmark, hhalt⟩ := shellRuns_eval [.tick, .execute (some shellName)]
    (fun k => k.running = some 1 ∧ (k.pcbs 1).parentPcb = some 0 ∧ k.globalHalt = 0 ∧
      (step shellImage (fun _ => .zero) k (.halt 0)).isSome) (by decide +kernel)
  obtain ⟨k', hk'⟩ := Option.isSome_iff_exists.mp hhalt
  obtain ⟨act, value, -, -, hlog, hvalue⟩ :=
    execute_returns_status_iff _ _ _ _ _ _ State.cleared_boot hk 1 0 hrun hparent 0 hk'
  refine ⟨k', act, run_snoc hk hk', ?_⟩
  obtain rfl : value = 0 := hvalue.mpr ⟨rfl, by simp [hmark]⟩
  rw [hlog]
  simp

/-- A second shell that ends with 7 returns 0 to the first. -/
theorem execute_drops_status : State.Boot .cleared ∧
    ∃ k, shellRuns [.tick, .execute (some shellName), .halt 7] = some k ∧
      .ended 1 7 ∈ k.trace.log ∧ .returned 1 0 ∈ k.trace.log ∧ .returned 1 7 ∉ k.trace.log :=
  ⟨State.cleared_boot, run_eval _ _ _ _ (by decide +kernel)⟩

/-! ### The exception mark -/

/-- No root process takes an exception. -/
def SparesRoots (img : Image) (stack : ℕ → Stack) (k : State) (e : Event) : Prop :=
  Traps img stack k e → ¬ RunsRoot k

instance (img : Image) (stack : ℕ → Stack) (k : State) (e : Event) :
    Decidable (SparesRoots img stack k e) := inferInstanceAs (Decidable (_ → ¬ _))

/-- The mark is down between steps, and the calls that returned 256 are those whose
child took an exception. -/
structure Attributed (k : State) : Prop where
  idle : k.globalHalt ≠ 1
  log : ∀ act, .returned act 256 ∈ k.trace.log ↔ .trapped act ∈ k.trace.log

/-- Neither a return of 256 nor an exception. -/
def Neutral : Obs → Prop
  | .returned _ value => value ≠ 256
  | .trapped _ => False
  | _ => True

section Attributed
variable {k k' : State} {st : Chains}

theorem Attributed.append (h : Attributed k) (os : List Obs) (hg : k'.globalHalt = k.globalHalt)
    (hlog : k'.trace.log = k.trace.log ++ os) (hos : ∀ o ∈ os, Neutral o) : Attributed k' := by
  refine ⟨by rw [hg]; exact h.idle, fun act => ?_⟩
  have hr : .returned act 256 ∉ os := fun hm => absurd rfl (hos _ hm)
  have ht : .trapped act ∉ os := fun hm => hos _ hm
  rw [hlog, List.mem_append, List.mem_append, h.log act]
  simp [hr, ht]

theorem Attributed.refused (h : Attributed k) (hr : Refused k k') : Attributed k' :=
  h.append _ hr.globalHalt hr.log (by simp [Neutral])

theorem Attributed.faulted (h : Attributed k) (hf : Faulted k k') : Attributed k' :=
  h.append _ hf.globalHalt hf.log (by simp [Neutral])

theorem Attributed.entered (h : Attributed k) {slot : Fin 6} (he : Entered k k' slot) :
    Attributed k' := by
  rcases he.outcome with ⟨-, hlog⟩ | ⟨⟨_, hlog⟩, -⟩
  · exact h.append _ he.globalHalt hlog (by simp [Neutral])
  · exact h.append _ he.globalHalt hlog (by simp [Neutral])

theorem Attributed.started (h : Attributed k) (hs : Started k k') : Attributed k' := by
  rcases hs with ⟨slot, he⟩ | ⟨-, hr | hf⟩
  exacts [h.entered he, h.refused hr, h.faulted hf]

/-- A process that ends by itself leaves no mark. -/
theorem Attributed.ended (h : Attributed k) (hc : Chained k st) {p : Fin 6}
    (hp : k.running = some p) (he : Ended k p k') : Attributed k' := by
  cases he with
  | root hroot hs => exact Attributed.started (k := freed k p) ⟨h.idle, h.log⟩ hs
  | child q hchild hq hr =>
    refine h.append _ (hr.globalHalt.trans (if_neg h.idle)) hr.log ?_
    simp [Neutral, h.idle]
  | orphan hchild hq => exact absurd ((hc.parent_none hp).mpr hq) hchild

/-- An exception in a process with a parent makes the call that started it return 256. -/
theorem Attributed.trapped (h : Attributed k) (hf : Frames k) (hc : Chained k st) {p : Fin 6}
    (hp : k.running = some p) (hroot : (k.pcbs p).parentPid ≠ -1) {e : Exception}
    (he : Ended (raise k p e) p k') : Attributed k' := by
  have hocc := hc.occupied_eq k.currScheduler p (hc.running_mem hp)
  cases he with
  | root hr hs => exact absurd hr hroot
  | child q hchild hq hr =>
    have hframe : ((raise k p e).pcbs q).haltFrame = k.trace.born p := hf.frame p q hocc hq
    have hlog : k'.trace.log = k.trace.log ++ [.trapped (k.trace.born p),
        .mapped (State.userEntry ((raise k p e).pcbs p).parentPid),
        .returned (k.trace.born p) 256] := by
      rw [hr.log, hframe]
      exact List.append_assoc k.trace.log [.trapped (k.trace.born p)] _
    refine ⟨?_, fun act => ?_⟩
    · rw [hr.globalHalt, if_pos (show (raise k p e).globalHalt = 1 from rfl)]
      decide
    · rw [hlog, List.mem_append, List.mem_append, h.log act]
      simp
  | orphan hchild hq => exact absurd ((hc.parent_none hp).mpr hq) hroot

theorem Attributed.step {img : Image} {stack : ℕ → Stack} {e : Event} (h : Attributed k)
    (hframed : Framed k) (hspare : SparesRoots img stack k e)
    (hstep : step img stack k e = some k') : Attributed k' := by
  obtain ⟨⟨st, hc⟩, hf⟩ := hframed
  obtain ⟨hlost, hcase⟩ := step_cases hstep
  have hframes := hf hlost
  have hroot {p : Fin 6} (htraps : Traps img stack k e) (hrun : k.running = some p) :
      (k.pcbs p).parentPid ≠ -1 := fun hr => hspare htraps ⟨p, hrun, hr⟩
  clear hstep hf
  cases hcase with
  | firstShell hrun hcs hs =>
    have hclear : Attributed (clearScreen k) :=
      h.append [] (clearScreen_quiet k).globalHalt (clearScreen_log k) (by simp)
    exact hclear.started hs
  | noProcess hrun hk =>
    subst hk
    exact ⟨h.idle, h.log⟩
  | newShell hrun hnext hs => exact Attributed.started (k := nextTurn k) ⟨h.idle, h.log⟩ hs
  | turn p hrun hnext hk =>
    subst hk
    exact h.append [.mapped (State.userEntry (k.pcbs p).pid)] rfl rfl (by simp [Neutral])
  | refused command p hrun hr => exact h.refused hr
  | entered command p slot hrun hadm he => exact h.entered he
  | faulted command p k₁ hrun hadm hf he =>
    have hrun₁ : k₁.running = some p := hf.running_raise hrun (e := .pf)
    have hroot₁ : (k₁.pcbs p).parentPid ≠ -1 := by
      rw [hf.pcbs]
      exact hroot ⟨hadm, hf.full⟩ hrun
    exact (h.faulted hf).trapped (hframes.faulted hf) (hc.faulted hf) hrun₁ hroot₁ he
  | halt status p hrun he =>
    have hneutral : Attributed (k.note (.ended (k.trace.born p) status)) :=
      h.append [.ended (k.trace.born p) status] rfl rfl (by simp [Neutral])
    exact hneutral.ended (hc.note _) hrun he
  | exception e p hrun he => exact h.trapped hframes hc hrun (hroot trivial hrun) he
  | call c p hrun hk =>
    subst hk
    refine h.append _ rfl rfl fun o ho => ?_
    rcases mem_observe ho with ⟨_, rfl⟩ | ⟨_, _, _, rfl⟩
    exacts [trivial, trivial]

end Attributed

/-- In a run of whole steps in which no root process takes an exception, a call of `execute`
returns 256 exactly when the child it started was ended by one. -/
theorem attributed_of_run {img : Image} {stack : ℕ → Stack} {k₀ k : State} {es : List Event}
    (hb : State.Boot k₀) (hspare : Along (step img stack) (SparesRoots img stack) k₀ es)
    (hr : runs img stack k₀ es = some k) : Attributed k := by
  obtain ⟨-, h⟩ := invariant_along (fun k => Framed k ∧ Attributed k)
    (fun k e k' hg hs ⟨hf, h⟩ => ⟨hf.step hs, h.step hf hg hs⟩) hspare hr
    ⟨Boot.framed hb, by simp [hb.globalHalt], by simp [hb.log]⟩
  exact h

end Ece391.Kernel
